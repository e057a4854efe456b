import Midend.Decimal
import Midend.Json.Number
import Midend.Json.Raw

/-!
# JSON values

The values behind the texts that fit the grammar: every number has to be in range, every escape has
to stand for a character, and arrays and objects may be nested only so deep. An object keeps its
fields as written, repeated keys included; `merged` keeps the last of equal keys in the order of the
keys.
-/

namespace Midend

/-- A JSON value. -/
inductive Json where
  | null
  | bool (b : Bool)
  | number (n : Json.Number)
  | string (s : String)
  | array (items : List Json)
  | object (fields : List (String × Json))

namespace Json

/-! ### Reading -/

/-- The character of two code units, the first of which is the upper half of a pair. -/
def pairChar? (high low : Nat) : Option Char :=
  if 0xdc00 ≤ low ∧ low < 0xe000 then
    some (Char.ofNat (0x10000 + 0x400 * (high - 0xd800) + (low - 0xdc00)))
  else none

/-- The characters of a string; `none` if half a pair stands alone. -/
def chars? : List Piece → Option (List Char)
  | [] => some []
  | .char c :: rest => (chars? rest).map (c :: ·)
  | .unit u :: rest =>
    if 0xd800 ≤ u ∧ u < 0xdc00 then
      match rest with
      | .unit low :: rest => do
        let c ← pairChar? u low
        (chars? rest).map (c :: ·)
      | _ => none
    else if 0xdc00 ≤ u ∧ u < 0xe000 then none
    else (chars? rest).map (Char.ofNat u :: ·)

def string? (ps : List Piece) : Option String := (chars? ps).map String.ofList

mutual

/-- The value of a text that fits the grammar, with room for so many arrays and objects inside each
other. -/
def ofRaw? (room : Nat) : Raw → Option Json
  | .null => some .null
  | .bool b => some (.bool b)
  | .number n => n.number?.map .number
  | .string ps => (string? ps).map .string
  | .array items =>
    match room with
    | 0 => none
    | room + 1 => (ofRawItems? room items).map .array
  | .object fields =>
    match room with
    | 0 => none
    | room + 1 => (ofRawFields? room fields).map .object

def ofRawItems? (room : Nat) : List Raw → Option (List Json)
  | [] => some []
  | r :: rs =>
    match ofRaw? room r, ofRawItems? room rs with
    | some v, some vs => some (v :: vs)
    | _, _ => none

def ofRawFields? (room : Nat) : List (List Piece × Raw) → Option (List (String × Json))
  | [] => some []
  | (k, r) :: rest =>
    match string? k, ofRaw? room r, ofRawFields? room rest with
    | some k, some v, some vs => some ((k, v) :: vs)
    | _, _, _ => none

end

/-- Arrays and objects may be nested 127 deep. -/
def maxDepth : Nat := 127

def ofText? (s : String) : Option Json := (Raw.ofText? s).bind (ofRaw? maxDepth)

/-! ### Equal keys -/

/-- Puts a field into fields that are in the order of their keys, in place of one with its key. -/
def putSorted (k : String) (v : Json) : List (String × Json) → List (String × Json)
  | [] => [(k, v)]
  | (k', v') :: rest =>
    if k = k' then (k, v) :: rest
    else if k < k' then (k, v) :: (k', v') :: rest
    else (k', v') :: putSorted k v rest

mutual

/-- The value with the last of equal keys in every object, in the order of the keys. -/
def merged : Json → Json
  | .array items => .array (mergedItems items)
  | .object fields => .object (mergedFields fields [])
  | v => v

/-- Merges in each item of an array. -/
def mergedItems : List Json → List Json
  | [] => []
  | v :: vs => v.merged :: mergedItems vs

/-- Adds fields to those that are already in order. -/
def mergedFields : List (String × Json) → List (String × Json) → List (String × Json)
  | [], done => done
  | (k, v) :: rest, done => mergedFields rest (putSorted k v.merged done)

end

/-! ### Writing -/

/-- Positional from `0.00001` to below `10 ^ 16`, a plus sign in exponents, ties to even digits. -/
def floatStyle : Decimal.FloatStyle := ⟨-5, 15, true, false⟩

def Number.text : Number → String
  | .whole i => toString i
  | .float bits => floatStyle.text bits

/-- Four hexadecimal digits. -/
def hex4 (n : Nat) : List Char :=
  let ds := Nat.toDigits 16 n
  List.replicate (4 - ds.length) '0' ++ ds

/-- How a character stands in a string. -/
def escapedChar (c : Char) : List Char :=
  if c = '"' then ['\\', '"']
  else if c = '\\' then ['\\', '\\']
  else if c = '\x08' then ['\\', 'b']
  else if c = '\x0c' then ['\\', 'f']
  else if c = '\n' then ['\\', 'n']
  else if c = '\r' then ['\\', 'r']
  else if c = '\t' then ['\\', 't']
  else if c.toNat < 0x20 then '\\' :: 'u' :: hex4 c.toNat
  else [c]

def quoted (s : String) : String := String.ofList ('"' :: s.toList.flatMap escapedChar ++ ['"'])

mutual

/-- The text of a value, without blanks. -/
def compact : Json → String
  | .null => "null"
  | .bool b => if b then "true" else "false"
  | .number n => n.text
  | .string s => quoted s
  | .array items => "[" ++ ",".intercalate (compactItems items) ++ "]"
  | .object fields => "\x7b" ++ ",".intercalate (compactFields fields) ++ "\x7d"

def compactItems : List Json → List String
  | [] => []
  | v :: vs => v.compact :: compactItems vs

def compactFields : List (String × Json) → List String
  | [] => []
  | (k, v) :: rest => (quoted k ++ ":" ++ v.compact) :: compactFields rest

end

end Json

end Midend
