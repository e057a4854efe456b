/-!
# Built-in operations

The operations that may stand in function position of an apply, with their written names and the
number of arguments each takes.
-/

namespace Midend

/-- A built-in operation. -/
inductive Prim where
  | ret
  | makeTuple
  | tupleGet
  | tupleSet
  | envSet
  | envGet
  | arrayMap
  | bindArgs
  | switch
  | add
  | sub
  | mul
  | div
  | mod
  | neg
  | eq
  | ne
  | lt
  | le
  | gt
  | ge
  | and
  | or
  | not
  deriving DecidableEq, Repr

namespace Prim

def name : Prim → String
  | ret => "return"
  | makeTuple => "make_tuple"
  | tupleGet => "tuple_getitem"
  | tupleSet => "tuple_setitem"
  | envSet => "env_setitem"
  | envGet => "env_getitem"
  | arrayMap => "array_map"
  | bindArgs => "partial"
  | switch => "switch"
  | add => "add"
  | sub => "sub"
  | mul => "mul"
  | div => "div"
  | mod => "mod"
  | neg => "neg"
  | eq => "eq"
  | ne => "ne"
  | lt => "lt"
  | le => "le"
  | gt => "gt"
  | ge => "ge"
  | and => "and"
  | or => "or"
  | not => "not"

/-- How many arguments the operation takes, the function slot not counted; `none` for those that
take any number. -/
def arity : Prim → Option Nat
  | makeTuple | bindArgs | arrayMap => none
  | ret | neg | not => some 1
  | tupleSet | envSet | envGet | switch => some 3
  | tupleGet | add | sub | mul | div | mod | eq | ne | lt | le | gt | ge | and | or => some 2

def all : List Prim :=
  [ret, makeTuple, tupleGet, tupleSet, envSet, envGet, arrayMap, bindArgs, switch, add, sub, mul,
    div, mod, neg, eq, ne, lt, le, gt, ge, and, or, not]

def ofName? (name : String) : Option Prim := all.find? (·.name = name)

theorem ofName?_name (p : Prim) : ofName? p.name = some p := by cases p <;> decide

theorem name_of_ofName? {s : String} {p : Prim} (h : ofName? s = some p) : p.name = s := by
  simpa using List.find?_some h

end Prim

end Midend
