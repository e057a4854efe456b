import Midend.Value

/-!
# The arena

All nodes and graphs that were ever made, by number. A node is a constant, a parameter or an apply;
the first input of an apply is the function. A graph has parameters and, once its output is set, a
return node. The arena only grows, and of what is in it only the slots of applies, annotations,
labels and the parts of a graph are ever changed. What is outside the arena has no inputs and keeps
no nodes, which bounds the searches over it.
-/

namespace Midend

/-- What a node computes. -/
inductive NodeKind where
  | constant (value : Value)
  | parameter
  | apply (inputs : List NodeId)
  deriving DecidableEq

/-- A node. Constants float freely; the others have an owner. -/
structure Node where
  kind : NodeKind
  owner : Option GraphId
  type : Option Ty
  label : Option String
  deriving DecidableEq

/-- A function definition; `ret` is the apply that returns the output. -/
structure Graph where
  name : String
  parameters : List NodeId
  ret : Option NodeId
  deriving DecidableEq

def NodeKind.inputs : NodeKind → List NodeId
  | apply inputs => inputs
  | _ => []

def NodeKind.value? : NodeKind → Option Value
  | constant v => some v
  | _ => none

/-- All nodes and graphs, by number. -/
structure Arena where
  nodes : Array Node
  graphs : Array Graph

namespace Arena

def empty : Arena := ⟨#[], #[]⟩

instance : Inhabited Arena := ⟨empty⟩

variable (a : Arena)

/-! ### Reading -/

def node? (n : NodeId) : Option Node := a.nodes[n.index]?

def graph? (g : GraphId) : Option Graph := a.graphs[g.index]?

def nodeIds : List NodeId := (List.range a.nodes.size).map NodeId.mk

def graphIds : List GraphId := (List.range a.graphs.size).map GraphId.mk

def kind? (n : NodeId) : Option NodeKind := (a.node? n).map Node.kind

def inputs (n : NodeId) : List NodeId :=
  match a.kind? n with
  | some k => k.inputs
  | none => []

def value? (n : NodeId) : Option Value := (a.kind? n).bind NodeKind.value?

def type? (n : NodeId) : Option Ty := (a.node? n).bind Node.type

def owner? (n : NodeId) : Option GraphId := (a.node? n).bind Node.owner

def label? (n : NodeId) : Option String := (a.node? n).bind Node.label

def isApply (n : NodeId) : Bool :=
  match a.kind? n with
  | some (.apply _) => true
  | _ => false

def isParameter (n : NodeId) : Bool := a.kind? n = some .parameter

/-- The graph that a constant names. -/
def heldGraph? (n : NodeId) : Option GraphId := (a.value? n).bind Value.graph?

/-- The operation that an apply of a constant operation runs. -/
def applied? (n : NodeId) : Option Prim :=
  (a.inputs n).head?.bind fun f => (a.value? f).bind Value.prim?

def graphName (g : GraphId) : String := ((a.graph? g).map Graph.name).getD ""

def parameters (g : GraphId) : List NodeId := ((a.graph? g).map Graph.parameters).getD []

def ret? (g : GraphId) : Option NodeId := (a.graph? g).bind Graph.ret

/-- The output of a graph, the argument of its return node. -/
def output? (g : GraphId) : Option NodeId := (a.ret? g).bind fun r => (a.inputs r)[1]?

/-- The nodes that a graph keeps by itself: its parameters and its return node. -/
def anchors (g : GraphId) : List NodeId := a.parameters g ++ (a.ret? g).toList

/-- The inputs of a node, each with the slot that holds it. -/
def slots (n : NodeId) : List (NodeId × Edge) :=
  (a.inputs n).zipIdx.map fun (m, i) => (m, ⟨n, i⟩)

/-- The node that an input slot holds. -/
def slot? (e : Edge) : Option NodeId := (a.inputs e.owner)[e.index]?

/-! ### Writing -/

/-- A new graph without parameters and output. -/
def addGraph (name : String) : GraphId × Arena :=
  (⟨a.graphs.size⟩, { a with graphs := a.graphs.push ⟨name, [], none⟩ })

/-- A new node without label. -/
def addNode (kind : NodeKind) (owner : Option GraphId) (type : Option Ty) :
    NodeId × Arena :=
  (⟨a.nodes.size⟩, { a with nodes := a.nodes.push ⟨kind, owner, type, none⟩ })

def modifyNode (n : NodeId) (f : Node → Node) : Arena :=
  { a with nodes := a.nodes.modify n.index f }

def modifyGraph (g : GraphId) (f : Graph → Graph) : Arena :=
  { a with graphs := a.graphs.modify g.index f }

/-- Points an input slot at another node. -/
def setSlot (e : Edge) (new : NodeId) : Arena :=
  a.modifyNode e.owner fun n =>
    match n.kind with
    | .apply inputs => { n with kind := .apply (inputs.set e.index new) }
    | _ => n

/-! ### Bounds -/

theorem mem_nodeIds {n : NodeId} : n ∈ a.nodeIds ↔ n.index < a.nodes.size := by
  simp only [nodeIds, List.mem_map, List.mem_range]
  constructor
  · rintro ⟨i, h, rfl⟩
    exact h
  · exact fun h => ⟨n.index, h, rfl⟩

theorem mem_graphIds {g : GraphId} : g ∈ a.graphIds ↔ g.index < a.graphs.size := by
  simp only [graphIds, List.mem_map, List.mem_range]
  constructor
  · rintro ⟨i, h, rfl⟩
    exact h
  · exact fun h => ⟨g.index, h, rfl⟩

theorem kind?_eq_none {n : NodeId} (h : n ∉ a.nodeIds) : a.kind? n = none := by
  rw [mem_nodeIds] at h
  simp [kind?, node?, Nat.le_of_not_lt h]

theorem inputs_eq_nil {n : NodeId} (h : n ∉ a.nodeIds) : a.inputs n = [] := by
  simp [inputs, a.kind?_eq_none h]

theorem graph?_eq_none {g : GraphId} (h : g ∉ a.graphIds) : a.graph? g = none := by
  rw [mem_graphIds] at h
  simp [graph?, Nat.le_of_not_lt h]

theorem anchors_eq_nil {g : GraphId} (h : g ∉ a.graphIds) : a.anchors g = [] := by
  simp [anchors, parameters, ret?, a.graph?_eq_none h]

end Arena

end Midend
