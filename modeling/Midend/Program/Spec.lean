import Midend.Json.Record

/-!
# Program descriptions

A program is described by its graphs: names and types of parameters, a list of nodes that are
constants or applies of names, and the name of the output. Names are not looked up yet. Records have
no fields of other names. The forms of a type are tried in turn, and a type that fits none is
refused with one message, wherever the fault lies within it.
-/

namespace Midend.Program

open Json (Mismatch Reader)

/-! ### Descriptions -/

mutual

/-- A type, by name or by parts. -/
inductive TypeSpec where
  | name (s : String)
  | tuple (parts : List TypeSpec)
  | array (element : TypeSpec)
  | function (targets : List FnSpec)

/-- A target of a function: a name, or a name with bound arguments. -/
inductive FnSpec where
  | name (s : String)
  | bound (func : String) (args : List TypeSpec)

end

structure ParamSpec where
  name : String
  type : Option TypeSpec

/-- A node; a well-formed one has either a constant or a list of names to apply. -/
structure NodeSpec where
  name : String
  constant : Option Json
  apply : Option (List String)
  type : Option TypeSpec

structure GraphSpec where
  name : String
  params : List ParamSpec
  nodes : List NodeSpec
  output : String

/-- A program; without a root its first graph is the root. -/
structure Spec where
  root : Option String
  graphs : List GraphSpec

/-! ### Types -/

/-- The value of the only field of a name. -/
def uniqueField? (name : String) (fields : List (String × Json)) : Option Json :=
  match fields.filter (·.1 = name) with
  | [(_, v)] => some v
  | _ => none

theorem sizeOf_uniqueField? {name : String} {fields : List (String × Json)} {v : Json}
    (h : uniqueField? name fields = some v) : sizeOf v < sizeOf fields := by
  unfold uniqueField? at h
  split at h
  · next k w hf =>
    obtain rfl := Option.some.inj h
    have hmem : (k, w) ∈ fields.filter (·.1 = name) := by simp [hf]
    have hlt := List.sizeOf_lt_of_mem (List.mem_filter.mp hmem).1
    have hpair : sizeOf (k, w) = 1 + sizeOf k + sizeOf w := rfl
    omega
  · cases h

mutual

/-- The type that a value describes in the first form that fits. -/
def TypeSpec.ofJson? : Json → Option TypeSpec
  | .string s => some (.name s)
  | .object fields =>
    match TypeSpec.tupleOf? fields with
    | some t => some t
    | none =>
      match TypeSpec.arrayOf? fields with
      | some t => some t
      | none => TypeSpec.functionOf? fields
  | _ => none
termination_by v => sizeOf v

def TypeSpec.tupleOf? (fields : List (String × Json)) : Option TypeSpec :=
  match _h : uniqueField? "tuple" fields with
  | some (.array items) => (TypeSpec.ofItems? items).map .tuple
  | _ => none
termination_by sizeOf fields
decreasing_by
  have := sizeOf_uniqueField? _h
  simp at this
  omega

def TypeSpec.arrayOf? (fields : List (String × Json)) : Option TypeSpec :=
  match _h : uniqueField? "array" fields with
  | some v => (TypeSpec.ofJson? v).map .array
  | none => none
termination_by sizeOf fields
decreasing_by exact sizeOf_uniqueField? _h

def TypeSpec.functionOf? (fields : List (String × Json)) : Option TypeSpec :=
  match _h : uniqueField? "fn" fields with
  | some (.array items) => (FnSpec.ofItems? items).map .function
  | _ => none
termination_by sizeOf fields
decreasing_by
  have := sizeOf_uniqueField? _h
  simp at this
  omega

/-- The target that a value describes. -/
def FnSpec.ofJson? : Json → Option FnSpec
  | .string s => some (.name s)
  | .object fields =>
    match uniqueField? "partial" fields, _h : uniqueField? "args" fields with
    | some (.string f), some (.array items) => (TypeSpec.ofItems? items).map (.bound f)
    | _, _ => none
  | _ => none
termination_by v => sizeOf v
decreasing_by
  have := sizeOf_uniqueField? _h
  simp at this ⊢
  omega

def TypeSpec.ofItems? : List Json → Option (List TypeSpec)
  | [] => some []
  | v :: vs =>
    match TypeSpec.ofJson? v, TypeSpec.ofItems? vs with
    | some t, some ts => some (t :: ts)
    | _, _ => none
termination_by vs => sizeOf vs

def FnSpec.ofItems? : List Json → Option (List FnSpec)
  | [] => some []
  | v :: vs =>
    match FnSpec.ofJson? v, FnSpec.ofItems? vs with
    | some t, some ts => some (t :: ts)
    | _, _ => none
termination_by vs => sizeOf vs

end

/-! ### Records -/

def readType : Reader TypeSpec := fun v =>
  match TypeSpec.ofJson? v with
  | some t => .ok t
  | none => .error (.noForm "TypeSpec")

/-- Reads fields in order, each by its name; names other than `known` are refused. -/
def foldFields {σ : Type} (known : List String) (read : σ → String → Json → Except Mismatch σ)
    (state : σ) : List (String × Json) → Except Mismatch σ
  | [] => .ok state
  | (k, v) :: rest =>
    if k ∈ known then
      match read state k v with
      | .error e => .error e
      | .ok state => foldFields known read state rest
    else .error (.unknownField k known)

/-- The fields of a parameter that have been read. -/
structure ParamFields where
  name : Option String := none
  type : Option (Option TypeSpec) := none

def ParamFields.read (f : ParamFields) (k : String) (v : Json) : Except Mismatch ParamFields :=
  if k = "name" then do return { f with name := ← Json.readOnce k f.name Json.readString v }
  else do return { f with type := ← Json.readOnce k f.type (Json.readOption readType) v }

def readParam : Reader ParamSpec
  | .object fields => do
    let f ← foldFields ["name", "type"] ParamFields.read {} fields
    .ok ⟨← Json.require "name" f.name, f.type.getD none⟩
  | .array items => do
    let name ← Json.requireItem "ParamSpec" 2 0 (← Json.readItem items 0 Json.readString)
    let type ← Json.readItem items 1 (Json.readOption readType)
    Json.noMoreItems items 2
    .ok ⟨name, type.getD none⟩
  | v => Json.unexpected "struct ParamSpec" v

/-- The fields of a node that have been read. -/
structure NodeFields where
  name : Option String := none
  constant : Option (Option Json) := none
  apply : Option (Option (List String)) := none
  type : Option (Option TypeSpec) := none

def readNames : Reader (List String) := Json.readList Json.readString

def NodeFields.read (f : NodeFields) (k : String) (v : Json) : Except Mismatch NodeFields :=
  if k = "name" then do return { f with name := ← Json.readOnce k f.name Json.readString v }
  else if k = "const" then do
    return { f with constant := ← Json.readOnce k f.constant (Json.readOption .ok) v }
  else if k = "apply" then do
    return { f with apply := ← Json.readOnce k f.apply (Json.readOption readNames) v }
  else do return { f with type := ← Json.readOnce k f.type (Json.readOption readType) v }

def readNode : Reader NodeSpec
  | .object fields => do
    let f ← foldFields ["name", "const", "apply", "type"] NodeFields.read {} fields
    .ok ⟨← Json.require "name" f.name, f.constant.getD none, f.apply.getD none, f.type.getD none⟩
  | .array items => do
    let name ← Json.requireItem "NodeSpec" 4 0 (← Json.readItem items 0 Json.readString)
    let constant ← Json.readItem items 1 (Json.readOption .ok)
    let apply ← Json.readItem items 2 (Json.readOption readNames)
    let type ← Json.readItem items 3 (Json.readOption readType)
    Json.noMoreItems items 4
    .ok ⟨name, constant.getD none, apply.getD none, type.getD none⟩
  | v => Json.unexpected "struct NodeSpec" v

/-- The fields of a graph that have been read. -/
structure GraphFields where
  name : Option String := none
  params : Option (List ParamSpec) := none
  nodes : Option (List NodeSpec) := none
  output : Option String := none

def GraphFields.read (f : GraphFields) (k : String) (v : Json) : Except Mismatch GraphFields :=
  if k = "name" then do return { f with name := ← Json.readOnce k f.name Json.readString v }
  else if k = "params" then do
    return { f with params := ← Json.readOnce k f.params (Json.readList readParam) v }
  else if k = "nodes" then do
    return { f with nodes := ← Json.readOnce k f.nodes (Json.readList readNode) v }
  else do return { f with output := ← Json.readOnce k f.output Json.readString v }

def readGraph : Reader GraphSpec
  | .object fields => do
    let f ← foldFields ["name", "params", "nodes", "output"] GraphFields.read {} fields
    let name ← Json.require "name" f.name
    .ok ⟨name, f.params.getD [], f.nodes.getD [], ← Json.require "output" f.output⟩
  | .array items => do
    let name ← Json.requireItem "GraphSpec" 4 0 (← Json.readItem items 0 Json.readString)
    let params ← Json.readItem items 1 (Json.readList readParam)
    let nodes ← Json.readItem items 2 (Json.readList readNode)
    let output ← Json.requireItem "GraphSpec" 4 3 (← Json.readItem items 3 Json.readString)
    Json.noMoreItems items 4
    .ok ⟨name, params.getD [], nodes.getD [], output⟩
  | v => Json.unexpected "struct GraphSpec" v

/-- The fields of a program that have been read. -/
structure Fields where
  root : Option (Option String) := none
  graphs : Option (List GraphSpec) := none

def Fields.read (f : Fields) (k : String) (v : Json) : Except Mismatch Fields :=
  if k = "root" then do
    return { f with root := ← Json.readOnce k f.root (Json.readOption Json.readString) v }
  else do return { f with graphs := ← Json.readOnce k f.graphs (Json.readList readGraph) v }

def readSpec : Reader Spec
  | .object fields => do
    let f ← foldFields ["root", "graphs"] Fields.read {} fields
    .ok ⟨f.root.getD none, ← Json.require "graphs" f.graphs⟩
  | .array items => do
    let root ← Json.readItem items 0 (Json.readOption Json.readString)
    let graphs ← Json.readItem items 1 (Json.readList readGraph)
    let graphs ← Json.requireItem "ProgramSpec" 2 1 graphs
    Json.noMoreItems items 2
    .ok ⟨root.getD none, graphs⟩
  | v => Json.unexpected "struct ProgramSpec" v

end Midend.Program
