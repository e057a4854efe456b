import Midend.Ty
import Midend.Decimal
import Midend.Text.Quoted

/-!
# Literals

The payload of a constant. Two literals are equal when they are the same kind of thing with the
same content; floating point numbers are told apart by their bits, so that `0.0` and `-0.0` differ
and a NaN equals itself.
-/

namespace Midend

/-- The payload of a constant. `key` is a symbolic key of an environment, `dead` a placeholder for
data that nobody reads. -/
inductive Value where
  | int (i : Int)
  | float (bits : UInt64)
  | bool (b : Bool)
  | str (s : String)
  | key (name : String)
  | graph (g : GraphId)
  | prim (p : Prim)
  | nil
  | dead
  deriving DecidableEq, Repr

namespace Value

def graph? : Value → Option GraphId
  | graph g => some g
  | _ => none

def prim? : Value → Option Prim
  | prim p => some p
  | _ => none

/-- The annotation that a constant gets when none is given; a placeholder gets none. -/
def type? : Value → Option Ty
  | int _ => some .int64
  | float _ => some .float64
  | bool _ => some (.scalar .bool)
  | str _ => some (.scalar .str)
  | key _ => some .key
  | graph g => some (.function [.graph g])
  | prim p => some (.function [.prim p])
  | nil => some .nil
  | dead => none

/-- Positional from `0.0001` to below `10 ^ 16`, no plus sign in exponents, ties go up. -/
def floatStyle : Decimal.FloatStyle := ⟨-4, 15, false, true⟩

def text : Value → String
  | int i => toString i
  | float bits => floatStyle.text bits
  | bool b => if b then "true" else "false"
  | str s => Text.quoted s
  | key k => "$" ++ k
  | graph g => "@" ++ g.text
  | prim p => p.name
  | nil => "nil"
  | dead => "DEAD"

end Value

end Midend
