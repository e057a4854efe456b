import Midend.Text.Unprintable

/-!
# Quoted text

A string between double quotes. The quote, the backslash and the usual controls are written with a
backslash and one letter, other characters without a visible form as their code point in braces.
-/

namespace Midend.Text

/-- The lower case hexadecimal digits of a number, without leading zeros. -/
def hex (n : Nat) : List Char := Nat.toDigits 16 n

/-- How one character stands between quotes. -/
def quotedChar (c : Char) : List Char :=
  if c = '"' then ['\\', '"']
  else if c = '\\' then ['\\', '\\']
  else if c = '\n' then ['\\', 'n']
  else if c = '\r' then ['\\', 'r']
  else if c = '\t' then ['\\', 't']
  else if c = '\x00' then ['\\', '0']
  else if Unprintable.contains c then '\\' :: 'u' :: '\x7b' :: hex c.toNat ++ ['\x7d']
  else [c]

def quoted (s : String) : String :=
  String.ofList ('"' :: s.toList.flatMap quotedChar ++ ['"'])

end Midend.Text
