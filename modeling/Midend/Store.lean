import Midend.Fault
import Midend.Live.Acquire
import Midend.Live.Release

/-!
# Stores

The manager of a program: an arena with the index of its live part and the root graphs. The index is
kept in step with every change of a slot: the new use is recorded and the new node made live before
the old use is struck and what it leaves unused is released, so that what both share survives. A
change of a slot that is not there fails and answers no store.
-/

namespace Midend

/-- All nodes and graphs, what of them is live, and the graphs that are roots. -/
structure Store where
  arena : Arena
  live : Live
  roots : OrderedSet GraphId

namespace Store

def empty : Store := ⟨.empty, .empty, .empty⟩

instance : Inhabited Store := ⟨empty⟩

/-! ### Making nodes and graphs -/

/-- Makes a graph without parameters and output. -/
def newGraph (s : Store) (name : String) : GraphId × Store :=
  let r := s.arena.addGraph name
  (r.1, { s with arena := r.2 })

/-- Makes a node that nothing uses yet. -/
def newNode (s : Store) (kind : NodeKind) (owner : Option GraphId) (type : Option Ty) :
    NodeId × Store :=
  let r := s.arena.addNode kind owner type
  (r.1, { s with arena := r.2 })

/-- Makes a constant with the annotation given. -/
def constantWith (s : Store) (v : Value) (type : Option Ty) : NodeId × Store :=
  s.newNode (.constant v) none type

/-- Makes a constant with the annotation that its value has by itself. -/
def constant (s : Store) (v : Value) : NodeId × Store := s.constantWith v v.type?

/-- Makes an apply; it becomes live once something live uses it. -/
def apply (s : Store) (g : GraphId) (inputs : List NodeId) (type : Option Ty) :
    NodeId × Store :=
  s.newNode (.apply inputs) (some g) type

/-- Makes a node live if the graph is. -/
def acquireIn (s : Store) (g : GraphId) (n : NodeId) : Store :=
  if g ∈ s.live.graphs then { s with live := s.live.acquireNode s.arena n } else s

/-- Makes a further parameter of a graph; it is live if the graph is. -/
def addParameter (s : Store) (g : GraphId) (type : Option Ty) : NodeId × Store :=
  let (n, s) := s.newNode .parameter (some g) type
  let arena := s.arena.modifyGraph g fun d => { d with parameters := d.parameters ++ [n] }
  (n, { s with arena }.acquireIn g n)

def setType (s : Store) (n : NodeId) (type : Option Ty) : Store :=
  { s with arena := s.arena.modifyNode n fun d => { d with type } }

def setLabel (s : Store) (n : NodeId) (label : String) : Store :=
  { s with arena := s.arena.modifyNode n fun d => { d with label := some label } }

/-! ### Roots -/

/-- Makes `g` a root, and everything it reaches live. -/
def addRoot (s : Store) (g : GraphId) : Store :=
  { s with roots := s.roots.insert g, live := s.live.acquireGraph s.arena g }

/-- Takes out the graphs that the roots do not reach. -/
def prune (s : Store) : Store :=
  { s with live := s.live.prune s.arena s.roots.toList }

/-- Makes `gs` the only roots and drops what they do not reach. -/
def keepRoots (s : Store) (gs : List GraphId) : Store :=
  let live := gs.foldl (Live.acquireGraph s.arena) s.live
  { s with roots := .ofList gs, live }.prune

/-! ### Changing slots -/

/-- Brings the index up to date after the slot `e` of a live node went over from `old` to `new`. -/
def moveUse (s : Store) (e : Edge) (old new : NodeId) : Store :=
  let live := (s.live.addUse new e).acquireNode s.arena new
  let (live, dropped) := (live.dropUse old e).release s.arena false [old]
  if dropped then { s with live }.prune else { s with live }

/-- Points the slot `e` at `new`. -/
def setEdge (s : Store) (e : Edge) (new : NodeId) : Except Fault Store :=
  match s.arena.kind? e.owner with
  | some (.apply inputs) =>
    match inputs[e.index]? with
    | none => .error (.slotOutOfRange e.owner e.index)
    | some old =>
      let s := { s with arena := s.arena.setSlot e new }
      .ok (if old = new ∨ e.owner ∉ s.live.nodes then s else s.moveUse e old new)
  | _ => .error (.noSlots e.owner)

/-- Points each slot of a list at `new`, up to the first that cannot be changed. -/
def setEdges (s : Store) (new : NodeId) : List Edge → Store × Except Fault Unit
  | [] => (s, .ok ())
  | e :: es =>
    match s.setEdge e new with
    | .ok s => s.setEdges new es
    | .error f => (s, .error f)

/-- Points every slot of a live node that holds `old` at `new`. -/
def replace (s : Store) (old new : NodeId) : Store × Except Fault Unit :=
  if old = new then (s, .ok ()) else s.setEdges new (s.live.usesOf old).toList

/-- Gives `g` a new return node for `output`, annotated like it. -/
def addReturn (s : Store) (g : GraphId) (output : NodeId) : Store :=
  let type := s.arena.type? output
  let (f, s) := s.constant (.prim .ret)
  let (r, s) := s.apply g [f, output] type
  let arena := s.arena.modifyGraph g fun d => { d with ret := some r }
  { s with arena }.acquireIn g r

/-- Makes `output` what `g` returns; the return node is made the first time. -/
def setOutput (s : Store) (g : GraphId) (output : NodeId) : Except Fault Store :=
  match s.arena.ret? g with
  | some r => s.setEdge ⟨r, 1⟩ output
  | none => .ok (s.addReturn g output)

theorem setOutput_of_ret?_eq_none {s : Store} {g : GraphId} {output : NodeId}
    (h : s.arena.ret? g = none) : s.setOutput g output = .ok (s.addReturn g output) := by
  simp [setOutput, h]

end Store

end Midend
