import Midend.Ident
import Midend.OrderedSet
import Midend.Prim

/-!
# Annotations

What is known about the value of a node: the type of a scalar, the parts of a tuple, the possible
targets of a function. A function lists its targets without repetitions; more than one means that a
call of it is ambiguous. Annotations and targets are compared part by part.
-/

namespace Midend

/-- Types of scalars; numbers carry their width in bits. -/
inductive ScalarType where
  | int (bits : UInt8)
  | uint (bits : UInt8)
  | float (bits : UInt8)
  | bool
  | str
  deriving DecidableEq, Repr

mutual

/-- What is known about a value. `dead` stands for a function that was cut away. -/
inductive Ty where
  | scalar (type : ScalarType)
  | tuple (parts : List Ty)
  | array (element : Ty)
  | env
  | key
  | nil
  | function (targets : List Target)
  | dead

/-- What a call may run. `typed` is an operation fixed to argument and result types, `bound` a
target with arguments already in front, `unknown` a target that could not be determined. -/
inductive Target where
  | graph (g : GraphId)
  | prim (p : Prim)
  | typed (p : Prim) (args : List Ty) (output : Ty)
  | bound (func : Target) (args : List Ty)
  | unknown

end

/-! ### Equality -/

mutual

/-- Whether two annotations are equal. -/
def Ty.same : Ty → Ty → Bool
  | .scalar s, .scalar t => s = t
  | .tuple xs, .tuple ys => Ty.sameList xs ys
  | .array a, .array b => a.same b
  | .env, .env => true
  | .key, .key => true
  | .nil, .nil => true
  | .function xs, .function ys => Target.sameList xs ys
  | .dead, .dead => true
  | _, _ => false

/-- Whether two targets are equal. -/
def Target.same : Target → Target → Bool
  | .graph g, .graph h => g = h
  | .prim p, .prim q => p = q
  | .typed p xs a, .typed q ys b => p = q && Ty.sameList xs ys && a.same b
  | .bound f xs, .bound g ys => f.same g && Ty.sameList xs ys
  | .unknown, .unknown => true
  | _, _ => false

/-- Whether two lists of annotations are equal. -/
def Ty.sameList : List Ty → List Ty → Bool
  | [], [] => true
  | a :: as, b :: bs => a.same b && Ty.sameList as bs
  | _, _ => false

/-- Whether two lists of targets are equal. -/
def Target.sameList : List Target → List Target → Bool
  | [], [] => true
  | a :: as, b :: bs => a.same b && Target.sameList as bs
  | _, _ => false

end

mutual

theorem Ty.same_iff : ∀ a b : Ty, a.same b = true ↔ a = b
  | .scalar s, b => by cases b <;> simp [Ty.same]
  | .tuple xs, b => by cases b <;> simp [Ty.same, Ty.sameList_iff xs]
  | .array a, b => by cases b <;> simp [Ty.same, Ty.same_iff a]
  | .env, b => by cases b <;> simp [Ty.same]
  | .key, b => by cases b <;> simp [Ty.same]
  | .nil, b => by cases b <;> simp [Ty.same]
  | .function xs, b => by cases b <;> simp [Ty.same, Target.sameList_iff xs]
  | .dead, b => by cases b <;> simp [Ty.same]

theorem Target.same_iff : ∀ a b : Target, a.same b = true ↔ a = b
  | .graph g, b => by cases b <;> simp [Target.same]
  | .prim p, b => by cases b <;> simp [Target.same]
  | .typed p xs o, b => by
    cases b <;> simp [Target.same, Ty.sameList_iff xs, Ty.same_iff o, and_assoc]
  | .bound f xs, b => by
    cases b <;> simp [Target.same, Target.same_iff f, Ty.sameList_iff xs]
  | .unknown, b => by cases b <;> simp [Target.same]

theorem Ty.sameList_iff : ∀ as bs : List Ty,
    Ty.sameList as bs = true ↔ as = bs
  | [], bs => by cases bs <;> simp [Ty.sameList]
  | a :: as, bs => by
    cases bs <;> simp [Ty.sameList, Ty.same_iff a, Ty.sameList_iff as]

theorem Target.sameList_iff : ∀ as bs : List Target, Target.sameList as bs = true ↔ as = bs
  | [], bs => by cases bs <;> simp [Target.sameList]
  | a :: as, bs => by
    cases bs <;> simp [Target.sameList, Target.same_iff a, Target.sameList_iff as]

end

instance : DecidableEq Ty := fun a b => decidable_of_iff _ (Ty.same_iff a b)

instance : DecidableEq Target := fun a b => decidable_of_iff _ (Target.same_iff a b)

/-! ### Building and reading annotations -/

namespace Ty

def int64 : Ty := .scalar (.int 64)

def float64 : Ty := .scalar (.float 64)

/-- A function with the given targets, repeated ones listed where they first occur. -/
def functionOf (targets : List Target) : Ty := .function (OrderedSet.ofList targets).toList

def targets? : Ty → Option (List Target)
  | .function ts => some ts
  | _ => none

def isFunction (a : Ty) : Bool := a.targets?.isSome

/-- The target of a function that has exactly one. -/
def uniqueTarget? : Ty → Option Target
  | .function [t] => some t
  | _ => none

end Ty

/-! ### Written form -/

namespace ScalarType

/-- Numbers are written as a letter and their width. -/
def text : ScalarType → String
  | int bits => s!"i{bits.toNat}"
  | uint bits => s!"u{bits.toNat}"
  | float bits => s!"f{bits.toNat}"
  | bool => "bool"
  | str => "str"

end ScalarType

mutual

/-- A tuple lists its parts in parentheses, an array its element in brackets, and a function shows
only how many targets it has. -/
def Ty.text : Ty → String
  | .scalar s => s.text
  | .tuple parts => "(" ++ ", ".intercalate (Ty.textList parts) ++ ")"
  | .array e => "[" ++ e.text ++ "]"
  | .env => "env"
  | .key => "symkey"
  | .nil => "nil"
  | .function ts => s!"fn#{ts.length}"
  | .dead => "error(dead)"

/-- The written forms of the parts of a tuple. -/
def Ty.textList : List Ty → List String
  | [] => []
  | a :: as => a.text :: Ty.textList as

end

end Midend
