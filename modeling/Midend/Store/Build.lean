import Midend.Store

/-!
# Building graphs

Applies of operations and graphs with the annotation that follows from their arguments: a tuple of
annotated parts, the part that a position selects, the targets of a function with arguments bound.
Constants that an apply needs are made first: the key, then the operation.
-/

namespace Midend.Store

def param (s : Store) (g : GraphId) (label : String) (type : Option Ty) : NodeId × Store :=
  let (n, s) := s.addParameter g type
  (n, s.setLabel n label)

def call (s : Store) (g : GraphId) (func : NodeId) (args : List NodeId)
    (type : Option Ty) : NodeId × Store :=
  s.apply g (func :: args) type

def callPrim (s : Store) (g : GraphId) (p : Prim) (args : List NodeId)
    (type : Option Ty) : NodeId × Store :=
  let (f, s) := s.constant (.prim p)
  s.call g f args type

def callGraph (s : Store) (g callee : GraphId) (args : List NodeId)
    (type : Option Ty) : NodeId × Store :=
  let (f, s) := s.constant (.graph callee)
  s.call g f args type

/-- Makes a tuple; it is annotated if every part is. -/
def tuple (s : Store) (g : GraphId) (parts : List NodeId) : NodeId × Store :=
  s.callPrim g .makeTuple parts ((parts.mapM s.arena.type?).map .tuple)

/-- The annotation of the part of a tuple at a position. -/
def partType? (type : Option Ty) (index : Int) : Option Ty :=
  match type with
  | some (.tuple parts) => if 0 ≤ index then parts[index.toNat]? else none
  | _ => none

/-- Selects the part of a tuple at a position. -/
def tupleGet (s : Store) (g : GraphId) (tuple : NodeId) (index : Int) : NodeId × Store :=
  let type := partType? (s.arena.type? tuple) index
  let (key, s) := s.constant (.int index)
  s.callPrim g .tupleGet [tuple, key] type

/-- Adds an entry to an environment. -/
def envSet (s : Store) (g : GraphId) (env : NodeId) (key : String) (value : NodeId) :
    NodeId × Store :=
  let (k, s) := s.constant (.key key)
  s.callPrim g .envSet [env, k, value] (some .env)

/-- Selects an entry of an environment, or the default where there is none. -/
def envGet (s : Store) (g : GraphId) (env : NodeId) (key : String) (default : NodeId) :
    NodeId × Store :=
  let type := s.arena.type? default
  let (k, s) := s.constant (.key key)
  s.callPrim g .envGet [env, k, default] type

/-- The annotation of a function once arguments are bound: each of its targets with the arguments'
annotations in front. -/
def boundType? (func : Option Ty) (args : List Ty) : Option Ty :=
  (func.bind Ty.targets?).map fun ts => .functionOf (ts.map (Target.bound · args))

/-- Binds arguments to a function. -/
def bindArgs (s : Store) (g : GraphId) (func : NodeId) (args : List NodeId) : NodeId × Store :=
  let type := boundType? (s.arena.type? func) (args.filterMap s.arena.type?)
  s.callPrim g .bindArgs (func :: args) type

end Midend.Store
