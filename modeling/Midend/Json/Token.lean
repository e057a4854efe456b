/-!
# Tokens of JSON texts

A text is cut into punctuation, words, numbers and strings. Strings keep their `\u` escapes as code
units, since two of them may make up one character, and numbers keep their digits. A text that
cannot be cut has no tokens.
-/

namespace Midend.Json

/-- A piece of a string: a character, or an escaped UTF-16 code unit. -/
inductive Piece where
  | char (c : Char)
  | unit (u : Nat)
  deriving DecidableEq, Repr

/-- The parts of a number; `fraction` and `exponent` are absent where the text has none. -/
structure NumberText where
  negative : Bool
  whole : List Nat
  fraction : Option (List Nat)
  exponent : Option (Bool × List Nat)
  deriving DecidableEq, Repr

inductive Token where
  | openBrace
  | closeBrace
  | openBracket
  | closeBracket
  | colon
  | comma
  | word (cs : List Char)
  | number (n : NumberText)
  | string (pieces : List Piece)
  deriving DecidableEq, Repr

/-! ### Numbers -/

/-- The digits at the head of a text, and the rest. -/
def digits : List Char → List Nat × List Char
  | [] => ([], [])
  | c :: cs =>
    if c.isDigit then
      let (ds, rest) := digits cs
      ((c.toNat - '0'.toNat) :: ds, rest)
    else ([], c :: cs)

/-- Digits, at least one. -/
def someDigits (cs : List Char) : Option (List Nat × List Char) :=
  match digits cs with
  | ([], _) => none
  | r => some r

/-- An optional fraction. -/
def fractionPart : List Char → Option (Option (List Nat) × List Char)
  | '.' :: cs => (someDigits cs).map fun (ds, rest) => (some ds, rest)
  | cs => some (none, cs)

/-- An optional exponent; its sign is `true` for a minus. -/
def exponentPart : List Char → Option (Option (Bool × List Nat))
  | [] => some none
  | e :: cs =>
    if e = 'e' ∨ e = 'E' then
      let (negative, cs) := match cs with
        | '-' :: cs => (true, cs)
        | '+' :: cs => (false, cs)
        | cs => (false, cs)
      match someDigits cs with
      | some (ds, []) => some (some (negative, ds))
      | _ => none
    else none

/-- A whole text read as a number: no leading zeros, no bare point. -/
def NumberText.ofChars? (cs : List Char) : Option NumberText := do
  let (negative, cs) := match cs with
    | '-' :: cs => (true, cs)
    | cs => (false, cs)
  let (whole, cs) ← someDigits cs
  if whole.length ≠ 1 ∧ whole.head? = some 0 then none
  let (fraction, cs) ← fractionPart cs
  let exponent ← exponentPart cs
  some ⟨negative, whole, fraction, exponent⟩

/-- Whether a character can stand in a number. -/
def inNumber (c : Char) : Bool :=
  c.isDigit || c = '-' || c = '+' || c = '.' || c = 'e' || c = 'E'

/-! ### Cutting a text -/

/-- What the text before the current character is part of. -/
inductive Cutting where
  | between
  | word (read : List Char)
  | number (read : List Char)
  | string (read : List Piece)
  | escape (read : List Piece)
  | code (read : List Piece) (value count : Nat)

/-- The value of a hexadecimal digit. -/
def hexValue? (c : Char) : Option Nat :=
  if c.isDigit then some (c.toNat - '0'.toNat)
  else if 'a' ≤ c ∧ c ≤ 'f' then some (c.toNat - 'a'.toNat + 10)
  else if 'A' ≤ c ∧ c ≤ 'F' then some (c.toNat - 'A'.toNat + 10)
  else none

/-- What a backslash and a letter stand for. -/
def escaped? : Char → Option Char
  | '"' => some '"'
  | '\\' => some '\\'
  | '/' => some '/'
  | 'b' => some '\x08'
  | 'f' => some '\x0c'
  | 'n' => some '\n'
  | 'r' => some '\r'
  | 't' => some '\t'
  | _ => none

/-- The blanks that may stand between tokens. -/
def isBlank (c : Char) : Bool := c = ' ' || c = '\n' || c = '\t' || c = '\r'

/-- The token of a punctuation character. -/
def punctuation? : Char → Option Token
  | '\x7b' => some .openBrace
  | '\x7d' => some .closeBrace
  | '[' => some .openBracket
  | ']' => some .closeBracket
  | ':' => some .colon
  | ',' => some .comma
  | _ => none

/-- What a character begins between tokens: the token that it is by itself, if any, and what the
text is part of after it. -/
def begin? (c : Char) : Option (List Token × Cutting) :=
  if isBlank c then some ([], .between)
  else match punctuation? c with
    | some t => some ([t], .between)
    | none =>
      if c = '"' then some ([], .string [])
      else if c = '-' ∨ c.isDigit then some ([], .number [c])
      else if c.isAlpha then some ([], .word [c])
      else none

/-- What one character does: the tokens that it completes, and what the text is part of after
it. What has been read is held in reverse. -/
def Cutting.next : Cutting → Char → Option (List Token × Cutting)
  | between, c => begin? c
  | word read, c =>
    if c.isAlpha then some ([], .word (c :: read))
    else (begin? c).map fun (ts, k) => (.word read.reverse :: ts, k)
  | number read, c =>
    if inNumber c then some ([], .number (c :: read))
    else do
      let n ← NumberText.ofChars? read.reverse
      let (ts, k) ← begin? c
      some (.number n :: ts, k)
  | string read, c =>
    if c = '"' then some ([.string read.reverse], .between)
    else if c = '\\' then some ([], .escape read)
    else if c.toNat < 0x20 then none
    else some ([], .string (.char c :: read))
  | escape read, c =>
    if c = 'u' then some ([], .code read 0 0)
    else (escaped? c).map fun d => ([], .string (.char d :: read))
  | code read value count, c =>
    (hexValue? c).map fun d =>
      let value := 16 * value + d
      ([], if count = 3 then .string (.unit value :: read) else .code read value (count + 1))

/-- The token that the end of the text completes. -/
def Cutting.finish : Cutting → Option (List Token)
  | between => some []
  | word read => some [.word read.reverse]
  | number read => (NumberText.ofChars? read.reverse).map ([.number ·])
  | string _ | escape _ | code .. => none

/-- The tokens of the rest of a text, the newest of `done` first. -/
def tokensFrom (k : Cutting) (done : List Token) : List Char → Option (List Token)
  | [] => k.finish.map fun ts => done.reverse ++ ts
  | c :: cs =>
    match k.next c with
    | none => none
    | some (ts, k) => tokensFrom k (ts.reverse ++ done) cs

def tokens? (s : String) : Option (List Token) := tokensFrom .between [] s.toList

end Midend.Json
