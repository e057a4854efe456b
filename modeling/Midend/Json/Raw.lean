import Midend.Json.Token

/-!
# JSON texts by grammar alone

A text that fits the grammar is a tree of literals, numbers, strings, arrays and objects. The tree
is built from the tokens with the open arrays and objects on a stack. Numbers and strings are kept
as written: whether a number is too big or an escape stands for no character is another question.
-/

namespace Midend.Json

/-- A text that fits the grammar. -/
inductive Raw where
  | null
  | bool (b : Bool)
  | number (n : NumberText)
  | string (pieces : List Piece)
  | array (items : List Raw)
  | object (fields : List (List Piece × Raw))

/-- An open array or object, with what it holds so far, newest first; an object also knows the key
of the value to come. -/
inductive Frame where
  | array (items : List Raw)
  | object (fields : List (List Piece × Raw)) (key : List Piece)

/-- What may come next. -/
inductive Expecting where
  /-- A value; after the opening bracket also the closing one. -/
  | value (orClose : Bool)
  /-- The key of an object; after the opening brace also the closing one. -/
  | key (fields : List (List Piece × Raw)) (orClose : Bool)
  /-- The colon after a key. -/
  | colon (fields : List (List Piece × Raw)) (key : List Piece)
  /-- What follows a complete value. -/
  | rest (value : Raw)

/-- The literal of a word. -/
def literal? (cs : List Char) : Option Raw :=
  if cs = "null".toList then some .null
  else if cs = "true".toList then some (.bool true)
  else if cs = "false".toList then some (.bool false)
  else none

/-- Reads one token; `none` if it does not fit. -/
def step (stack : List Frame) : Expecting → Token → Option (List Frame × Expecting)
  | .value orClose, t =>
    match t with
    | .word cs => (literal? cs).map fun v => (stack, .rest v)
    | .number n => some (stack, .rest (.number n))
    | .string ps => some (stack, .rest (.string ps))
    | .openBracket => some (.array [] :: stack, .value true)
    | .openBrace => some (stack, .key [] true)
    | .closeBracket =>
      match orClose, stack with
      | true, .array items :: below => some (below, .rest (.array items.reverse))
      | _, _ => none
    | _ => none
  | .key fields orClose, t =>
    match t with
    | .string ps => some (stack, .colon fields ps)
    | .closeBrace => if orClose then some (stack, .rest (.object fields.reverse)) else none
    | _ => none
  | .colon fields key, t =>
    match t with
    | .colon => some (.object fields key :: stack, .value false)
    | _ => none
  | .rest v, t =>
    match stack, t with
    | .array items :: below, .comma => some (.array (v :: items) :: below, .value false)
    | .array items :: below, .closeBracket => some (below, .rest (.array (v :: items).reverse))
    | .object fields key :: below, .comma => some (below, .key ((key, v) :: fields) false)
    | .object fields key :: below, .closeBrace =>
      some (below, .rest (.object ((key, v) :: fields).reverse))
    | _, _ => none

/-- Reads the tokens to the end, where one complete value has to be left. -/
def build (stack : List Frame) (e : Expecting) : List Token → Option Raw
  | [] =>
    match stack, e with
    | [], .rest v => some v
    | _, _ => none
  | t :: ts =>
    match step stack e t with
    | none => none
    | some (stack, e) => build stack e ts

/-- Reads a whole text. -/
def Raw.ofText? (s : String) : Option Raw := (tokens? s).bind (build [] (.value false))

end Midend.Json
