import Midend.Json.Basic
import Midend.Text.Quoted

/-!
# Reading records from JSON values

A record is read from an object or from an array of its fields in order. What does not fit is a
`Mismatch`; of several the one that comes first in the text is found. A field that is given twice is
refused before its second value is looked at.
-/

namespace Midend.Json

/-- Why a value is not what was expected. -/
inductive Mismatch where
  /-- A value of another kind. -/
  | type (found expected : String)
  /-- A number out of range. -/
  | value (found expected : String)
  | unknownField (name : String) (known : List String)
  | duplicateField (name : String)
  | missingField (name : String)
  | unknownVariant (name : String) (known : List String)
  /-- An array that ends before a field without default. -/
  | length (found : Nat) (expected : String)
  /-- Something follows where nothing may. -/
  | trailing
  /-- Something else than a name stands where a name is asked for. -/
  | noValue
  /-- None of the forms of a value fits. -/
  | noForm (name : String)
  deriving DecidableEq, Repr

namespace Mismatch

/-- A name between accents. -/
def accented (s : String) : String := "\x60" ++ s ++ "\x60"

/-- The names that were expected. -/
def oneOf : List String → String
  | [] => "there are no fields"
  | [a] => "expected " ++ accented a
  | [a, b] => "expected " ++ accented a ++ " or " ++ accented b
  | names => "expected one of " ++ ", ".intercalate (names.map accented)

def message : Mismatch → String
  | type found expected => s!"invalid type: {found}, expected {expected}"
  | value found expected => s!"invalid value: {found}, expected {expected}"
  | unknownField name known => s!"unknown field {accented name}, {oneOf known}"
  | duplicateField name => s!"duplicate field {accented name}"
  | missingField name => s!"missing field {accented name}"
  | unknownVariant name known => s!"unknown variant {accented name}, {oneOf known}"
  | length found expected => s!"invalid length {found}, expected {expected}"
  | trailing => "trailing characters"
  | noValue => "expected value"
  | noForm name => s!"data did not match any variant of untagged enum {name}"

end Mismatch

/-- What is said of a text that is no JSON. -/
def noJson : String := "<syntax>"

/-- What kind of thing a value is, as said when another was expected. -/
def kindText : Json → String
  | .null => "null"
  | .bool b => "boolean " ++ Mismatch.accented (if b then "true" else "false")
  | .number (.whole i) => "integer " ++ Mismatch.accented (toString i)
  | .number (.float bits) => "floating point " ++ Mismatch.accented (floatStyle.text bits)
  | .string s => "string " ++ Text.quoted s
  | .array _ => "sequence"
  | .object _ => "map"

/-- Reads a value of some kind. -/
abbrev Reader (α : Type) := Json → Except Mismatch α

/-- Refuses a value as not of the kind expected. -/
def unexpected {α : Type} (expected : String) (v : Json) : Except Mismatch α :=
  .error (.type v.kindText expected)

def readString : Reader String
  | .string s => .ok s
  | v => unexpected "a string" v

def readBool : Reader Bool
  | .bool b => .ok b
  | v => unexpected "a boolean" v

/-- Reads a whole number that is not negative. -/
def readNat : Reader Nat
  | .number (.whole i) =>
    if 0 ≤ i then .ok i.toNat
    else .error (.value (kindText (.number (.whole i))) "usize")
  | v => unexpected "usize" v

/-- Reads nothing but `null`. -/
def readUnit : Reader Unit
  | .null => .ok ()
  | v => unexpected "unit" v

/-- Reads `null` as absent. -/
def readOption {α : Type} (read : Reader α) : Reader (Option α)
  | .null => .ok none
  | v => (read v).map some

def readItems {α : Type} (read : Reader α) : List Json → Except Mismatch (List α)
  | [] => .ok []
  | v :: vs =>
    match read v with
    | .error e => .error e
    | .ok a => (readItems read vs).map (a :: ·)

def readList {α : Type} (read : Reader α) : Reader (List α)
  | .array items => readItems read items
  | v => unexpected "a sequence" v

/-- Reads a field that must not have been read before. -/
def readOnce {α : Type} (name : String) (before : Option α) (read : Reader α) (v : Json) :
    Except Mismatch (Option α) :=
  if before.isSome then .error (.duplicateField name) else (read v).map some

/-- A field that has no default. -/
def require {α : Type} (name : String) : Option α → Except Mismatch α
  | some a => .ok a
  | none => .error (.missingField name)

/-- The item of an array at a position, if the array reaches so far. -/
def readItem {α : Type} (items : List Json) (i : Nat) (read : Reader α) :
    Except Mismatch (Option α) :=
  match items[i]? with
  | some v => (read v).map some
  | none => .ok none

/-- An item of an array that has no default; `count` is how many fields the record has. -/
def requireItem {α : Type} (record : String) (count i : Nat) : Option α → Except Mismatch α
  | some a => .ok a
  | none => .error (.length i s!"struct {record} with {count} elements")

/-- Refuses an array with more than `count` items. -/
def noMoreItems (items : List Json) (count : Nat) : Except Mismatch Unit :=
  if count < items.length then .error .trailing else .ok ()

end Midend.Json
