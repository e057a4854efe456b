import Midend.Merge.Groups

/-!
# The hash of a shape

Shapes are written as lists of numbers, each part behind a number for its kind and, where it has
several, the count of its own parts. The numbers are mixed one after the other into 64 bits.
-/

namespace Midend

def ScalarType.words : ScalarType → List Nat
  | int bits => [0, bits.toNat]
  | uint bits => [1, bits.toNat]
  | float bits => [2, bits.toNat]
  | bool => [3]
  | str => [4]

mutual

def Ty.words : Ty → List Nat
  | .scalar s => 0 :: s.words
  | .tuple parts => 1 :: parts.length :: Ty.wordsOfList parts
  | .array e => 2 :: e.words
  | .env => [3]
  | .key => [4]
  | .nil => [5]
  | .function ts => 6 :: ts.length :: Target.wordsOfList ts
  | .dead => [7]

def Target.words : Target → List Nat
  | .graph g => [0, g.index]
  | .prim p => [1, p.ctorIdx]
  | .typed p args out => 2 :: p.ctorIdx :: args.length :: (Ty.wordsOfList args ++ out.words)
  | .bound f args => 3 :: args.length :: (f.words ++ Ty.wordsOfList args)
  | .unknown => [4]

def Ty.wordsOfList : List Ty → List Nat
  | [] => []
  | a :: as => a.words ++ Ty.wordsOfList as

def Target.wordsOfList : List Target → List Nat
  | [] => []
  | t :: ts => t.words ++ Target.wordsOfList ts

end

def TypeKey.words : TypeKey → List Nat
  | plain t => 0 :: t.words
  | typed t => 1 :: t.words

private def textWords (s : String) : List Nat := s.length :: s.toList.map Char.toNat

def Value.words : Value → List Nat
  | int i => [0, (decide (i < 0)).toNat, i.natAbs]
  | float bits => [1, bits.toNat]
  | bool b => [2, b.toNat]
  | str s => 3 :: textWords s
  | key name => 4 :: textWords name
  | graph g => [5, g.index]
  | prim p => [6, p.ctorIdx]
  | nil => [7]
  | dead => [8]

def Shape.words : Shape → List Nat
  | constant v key => 0 :: (v.words ++ (key.map TypeKey.words).getD [])
  | parameter n => [1, n.index]
  | apply classes => 2 :: classes.length :: classes.map UInt64.toNat

/-- FNV-1a, with a number for a byte in each step. -/
instance : Hashable Shape where
  hash s := UInt64.ofNat <| s.words.foldl (fun h w => (h ^^^ w) * 1099511628211 % UInt64.size)
    14695981039346656037

end Midend
