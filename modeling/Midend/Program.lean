import Midend.Program.Spec
import Midend.Store.Build

/-!
# Programs

A program is built from its description graph by graph. Names in an apply mean a node of the same
graph that stands before it, else a graph, else an operation; the latter two become a constant each
time they are used. Annotations of a whole graph are looked up before its nodes are made.
-/

namespace Midend

namespace Program

/-! ### Errors -/

/-- Why a value describes no constant. -/
inductive ConstantError where
  | unsupported (v : Json)
  | unknownGraph (name : String)
  | unknownPrim (name : String)

def ConstantError.message : ConstantError → String
  | unsupported v => s!"unsupported constant {v.compact}"
  | unknownGraph name => s!"unknown graph '{name}'"
  | unknownPrim name => s!"unknown primitive '{name}'"

/-- Why a program cannot be loaded; `graph` is the graph in which the fault lies. -/
inductive LoadError where
  /-- The file cannot be read, for a reason given by the system. -/
  | unreadable (path reason : String)
  /-- The text is not a description, for a reason given by its reader. -/
  | malformed (reason : String)
  | noGraphs
  | duplicateGraph (name : String)
  | unknownRoot (name : String)
  | unknownType (name : String)
  | unknownFunction (name : String)
  | duplicateName (name graph : String)
  | badConstant (node graph : String) (cause : ConstantError)
  | appliesNothing (node graph : String)
  | unknownName (name graph : String)
  | notAFunction (node graph func : String)
  | wrongArity (node graph func : String) (expected got : Nat)
  | notOneForm (node graph : String)
  | unknownOutput (output graph : String)
  /-- The output of a graph cannot be set. -/
  | broken (fault : Fault)

namespace LoadError

def message : LoadError → String
  | unreadable path reason => s!"read program {path}: {reason}"
  | malformed reason => s!"parse program: {reason}"
  | noGraphs => "program has no graphs"
  | duplicateGraph name => s!"duplicate graph name '{name}'"
  | unknownRoot name => s!"root graph '{name}' is not defined"
  | unknownType name => s!"unknown type '{name}'"
  | unknownFunction name => s!"unknown function '{name}'"
  | duplicateName name graph => s!"duplicate name '{name}' in graph '{graph}'"
  | badConstant node graph cause => s!"node '{node}' in graph '{graph}': {cause.message}"
  | appliesNothing node graph => s!"node '{node}' in graph '{graph}' applies nothing"
  | unknownName name graph => s!"unknown name '{name}' in graph '{graph}'"
  | notAFunction node graph func =>
    s!"node '{node}' in graph '{graph}': '{func}' is applied but has no function type"
  | wrongArity node graph func expected got =>
    s!"node '{node}' in graph '{graph}': {func} takes {expected} argument(s), got {got}"
  | notOneForm node graph =>
    s!"node '{node}' in graph '{graph}' needs exactly one of \"const\" or \"apply\""
  | unknownOutput output graph => s!"output '{output}' of graph '{graph}' is not defined"
  | broken fault => fault.message

def toFailure : LoadError → Failure
  | broken fault => fault.toFailure
  | e => .invalidInput .error e.message "graphopt.program"

/-- What cannot be built is an invalid input, unless an output cannot be set. -/
theorem toFailure_of_ne_broken {e : LoadError} (h : ∀ fault, e ≠ broken fault) :
    e.toFailure = .invalidInput .error e.message "graphopt.program" := by
  cases e with
  | broken fault => exact absurd rfl (h fault)
  | _ => rfl

end LoadError

/-! ### Names -/

/-- The graphs of a program by name. -/
abbrev GraphNames := OrderedMap String GraphId

/-- A width below 256, in digits; a plus sign may stand in front. -/
def width? (cs : List Char) : Option UInt8 :=
  let ds := match cs with
    | '+' :: ds => ds
    | ds => ds
  if ds ≠ [] ∧ ds.all Char.isDigit then
    let n := ds.foldl (fun n c => 10 * n + (c.toNat - '0'.toNat)) 0
    if n < 256 then some n.toUInt8 else none
  else none

/-- The annotation of the name of a type. -/
def namedType? (name : String) : Option Ty :=
  if name = "bool" then some (.scalar .bool)
  else if name = "str" then some (.scalar .str)
  else if name = "env" then some .env
  else if name = "nil" then some .nil
  else if name = "symkey" then some .key
  else match name.toList with
    | 'i' :: cs => (width? cs).map fun w => .scalar (.int w)
    | 'u' :: cs => (width? cs).map fun w => .scalar (.uint w)
    | 'f' :: cs => (width? cs).map fun w => .scalar (.float w)
    | _ => none

/-- The target of the name of a function: unknown, a graph, or else an operation. -/
def namedTarget (graphs : GraphNames) (name : String) : Except LoadError Target :=
  if name = "opaque" then .ok .unknown
  else match graphs.get? name with
    | some g => .ok (.graph g)
    | none =>
      match Prim.ofName? name with
      | some p => .ok (.prim p)
      | none => .error (.unknownFunction name)

mutual

/-- The annotation of a described type. -/
def typeOf (graphs : GraphNames) : TypeSpec → Except LoadError Ty
  | .name s =>
    match namedType? s with
    | some t => .ok t
    | none => .error (.unknownType s)
  | .tuple parts => (typesOf graphs parts).map .tuple
  | .array element => (typeOf graphs element).map .array
  | .function targets => (targetsOf graphs targets).map .functionOf

def typesOf (graphs : GraphNames) : List TypeSpec → Except LoadError (List Ty)
  | [] => .ok []
  | t :: ts =>
    match typeOf graphs t with
    | .error e => .error e
    | .ok a => (typesOf graphs ts).map (a :: ·)

def targetOf (graphs : GraphNames) : FnSpec → Except LoadError Target
  | .name s => namedTarget graphs s
  | .bound f args =>
    match namedTarget graphs f with
    | .error e => .error e
    | .ok t => (typesOf graphs args).map (.bound t)

def targetsOf (graphs : GraphNames) : List FnSpec → Except LoadError (List Target)
  | [] => .ok []
  | f :: fs =>
    match targetOf graphs f with
    | .error e => .error e
    | .ok t => (targetsOf graphs fs).map (t :: ·)

end

/-- The annotation of an optional type. -/
def optionalType (graphs : GraphNames) : Option TypeSpec → Except LoadError (Option Ty)
  | none => .ok none
  | some t => (typeOf graphs t).map some

def optionalTypes (graphs : GraphNames) :
    List (Option TypeSpec) → Except LoadError (List (Option Ty))
  | [] => .ok []
  | t :: ts =>
    match optionalType graphs t with
    | .error e => .error e
    | .ok a => (optionalTypes graphs ts).map (a :: ·)

/-! ### Constants -/

/-- The floating point number nearest to a number. -/
def floatBits : Json.Number → UInt64
  | .whole i => (Float.ofInt i).toBits
  | .float bits => bits

/-- The constant of an object with one field, by the name of the field. -/
def taggedConstant (graphs : GraphNames) (tag : String) (v : Json) : Except ConstantError Value :=
  match tag, v with
  | "key", .string k => .ok (.key k)
  | "float", .number n => .ok (.float (floatBits n))
  | "nil", _ => .ok .nil
  | "graph", .string name =>
    match graphs.get? name with
    | some g => .ok (.graph g)
    | none => .error (.unknownGraph name)
  | "prim", .string name =>
    match Prim.ofName? name with
    | some p => .ok (.prim p)
    | none => .error (.unknownPrim name)
  | _, _ => .error (.unsupported (.object [(tag, v)]))

/-- The constant that a value describes; whole numbers beyond 64 signed bits become floating point
numbers. -/
def constantOf (graphs : GraphNames) (v : Json) : Except ConstantError Value :=
  match v.merged with
  | .bool b => .ok (.bool b)
  | .number (.whole i) => .ok (if i < Int.pow 2 63 then .int i else .float (floatBits (.whole i)))
  | .number (.float bits) => .ok (.float bits)
  | .string s => .ok (.str s)
  | .object [(tag, v)] => taggedConstant graphs tag v
  | v => .error (.unsupported v)

/-! ### Building a graph -/

/-- A graph under construction: its number and name, the store, and its nodes by name. -/
structure Draft where
  graph : GraphId
  graphName : String
  store : Store
  names : OrderedMap String NodeId

namespace Draft

/-- Gives a node a name, by which it can be found. -/
def bind (d : Draft) (name : String) (n : NodeId) : Draft :=
  { d with store := d.store.setLabel n name, names := d.names.insert name n }

/-- Refuses a name that has been given. -/
def checkNew (d : Draft) (name : String) : Except LoadError Unit :=
  if (d.names.get? name).isSome then .error (.duplicateName name d.graphName) else .ok ()

def addParams (d : Draft) : List (String × Option Ty) → Except LoadError Draft
  | [] => .ok d
  | (name, type) :: rest =>
    match d.checkNew name with
    | .error e => .error e
    | .ok () =>
      let (n, store) := d.store.addParameter d.graph type
      ({ d with store }.bind name n).addParams rest

/-- The node that a name means in an apply. -/
def resolve (d : Draft) (graphs : GraphNames) (name : String) : Except LoadError (NodeId × Draft) :=
  match d.names.get? name with
  | some n => .ok (n, d)
  | none =>
    let value := match graphs.get? name with
      | some g => some (Value.graph g)
      | none => (Prim.ofName? name).map Value.prim
    match value with
    | none => .error (.unknownName name d.graphName)
    | some v =>
      let (n, store) := d.store.constant v
      .ok (n, { d with store })

def resolveAll (d : Draft) (graphs : GraphNames) :
    List String → Except LoadError (List NodeId × Draft)
  | [] => .ok ([], d)
  | name :: rest =>
    match d.resolve graphs name with
    | .error e => .error e
    | .ok (n, d) => (d.resolveAll graphs rest).map fun (ns, d) => (n :: ns, d)

/-- Refuses an apply of what is no function, or of an operation to the wrong number of
arguments. -/
def checkCall (d : Draft) (node funcName : String) (func : NodeId) (count : Nat) :
    Except LoadError Unit :=
  if ((d.store.arena.type? func).bind Ty.targets?).isNone then
    .error (.notAFunction node d.graphName funcName)
  else
    match ((d.store.arena.value? func).bind Value.prim?).bind Prim.arity with
    | none => .ok ()
    | some expected =>
      if expected = count then .ok ()
      else .error (.wrongArity node d.graphName funcName expected count)

/-- Makes the apply of a list of names, the function first. -/
def addApply (d : Draft) (graphs : GraphNames) (node : String) (type : Option Ty) :
    List String → Except LoadError (NodeId × Draft)
  | [] => .error (.appliesNothing node d.graphName)
  | funcName :: argNames =>
    match d.resolve graphs funcName with
    | .error e => .error e
    | .ok (func, d) =>
      match d.resolveAll graphs argNames with
      | .error e => .error e
      | .ok (args, d) =>
        match d.checkCall node funcName func args.length with
        | .error e => .error e
        | .ok () =>
          let (n, store) := d.store.call d.graph func args type
          .ok (n, { d with store })

/-- Makes a constant; without an annotation of its own it has that of its value. -/
def addConstant (d : Draft) (graphs : GraphNames) (node : String) (type : Option Ty)
    (v : Json) : Except LoadError (NodeId × Draft) :=
  match constantOf graphs v with
  | .error cause => .error (.badConstant node d.graphName cause)
  | .ok value =>
    let (n, store) := match type with
      | some t => d.store.constantWith value (some t)
      | none => d.store.constant value
    .ok (n, { d with store })

/-- Makes a node in the one form that it is given. -/
def addNode (d : Draft) (graphs : GraphNames) (spec : NodeSpec) (type : Option Ty) :
    Except LoadError Draft :=
  match d.checkNew spec.name with
  | .error e => .error e
  | .ok () =>
    let made := match spec.constant, spec.apply with
      | some v, none => d.addConstant graphs spec.name type v
      | none, some names => d.addApply graphs spec.name type names
      | _, _ => .error (.notOneForm spec.name d.graphName)
    made.map fun (n, d) => d.bind spec.name n

def addNodes (d : Draft) (graphs : GraphNames) :
    List (NodeSpec × Option Ty) → Except LoadError Draft
  | [] => .ok d
  | (spec, type) :: rest =>
    match d.addNode graphs spec type with
    | .error e => .error e
    | .ok d => d.addNodes graphs rest

/-- Sets the output of the graph, and hands out the store. -/
def finish (d : Draft) (output : String) : Except LoadError Store :=
  match d.names.get? output with
  | none => .error (.unknownOutput output d.graphName)
  | some n => (d.store.setOutput d.graph n).mapError .broken

end Draft

/-- Builds a graph that has no parameters and no output yet. -/
def buildGraph (graphs : GraphNames) (s : Store) (g : GraphId) (spec : GraphSpec) :
    Except LoadError Store := do
  let paramTypes ← optionalTypes graphs (spec.params.map ParamSpec.type)
  let nodeTypes ← optionalTypes graphs (spec.nodes.map NodeSpec.type)
  let d : Draft := ⟨g, spec.name, s, .empty⟩
  let d ← d.addParams ((spec.params.map ParamSpec.name).zip paramTypes)
  let d ← d.addNodes graphs (spec.nodes.zip nodeTypes)
  d.finish spec.output

end Program

/-- A loaded program: the store, the root, and the graphs in the order of the description. -/
structure Program where
  store : Store
  root : GraphId
  graphs : List GraphId

namespace Program

/-- Makes a graph for each name of a list, without parameters and output. -/
def addGraphs (s : Store) (names : GraphNames) :
    List String → Except LoadError (Store × GraphNames)
  | [] => .ok (s, names)
  | name :: rest =>
    if (names.get? name).isSome then .error (.duplicateGraph name)
    else
      let (g, s) := s.newGraph name
      addGraphs s (names.insert name g) rest

def buildGraphs (graphs : GraphNames) (s : Store) :
    List (GraphSpec × GraphId) → Except LoadError Store
  | [] => .ok s
  | (spec, g) :: rest =>
    match buildGraph graphs s g spec with
    | .error e => .error e
    | .ok s => buildGraphs graphs s rest

/-- The root of a program: the one that is named, else the first graph. -/
def rootOf (graphs : GraphNames) (first : GraphId) : Option String → Except LoadError GraphId
  | none => .ok first
  | some name =>
    match graphs.get? name with
    | some g => .ok g
    | none => .error (.unknownRoot name)

def build (spec : Spec) : Except LoadError Program := do
  let (s, names) ← addGraphs .empty .empty (spec.graphs.map GraphSpec.name)
  match names.entries.map Prod.snd with
  | [] => .error .noGraphs
  | first :: others =>
    let graphs := first :: others
    let s ← buildGraphs names s (spec.graphs.zip graphs)
    let root ← rootOf names first spec.root
    .ok ⟨s, root, graphs⟩

def ofText (text : String) : Except LoadError Program :=
  match Json.ofText? text with
  | none => .error (.malformed Json.noJson)
  | some v =>
    match readSpec v with
    | .error e => .error (.malformed e.message)
    | .ok spec => build spec

end Program

end Midend
