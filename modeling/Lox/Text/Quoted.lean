/-
  Lox.Text.Quoted
  ───────────────
  **TEXT IN QUOTES, WITH NOTHING HIDDEN.**

  A text between double quotes.  Quotes, backslashes and the usual control
  characters have short escapes; every other character that shows nothing of
  its own is written as its code point.
-/
import Lox.Text.Unprintable

namespace Lox.Text

/-- A code point in base sixteen, without leading zeros. -/
def hexadecimal (n : Nat) : List Char :=
  Nat.toDigits 16 n

/-- A character between quotes. -/
def escape (c : Char) : List Char :=
  if c = '"' then ['\\', '"']
  else if c = '\\' then ['\\', '\\']
  else if c = '\n' then ['\\', 'n']
  else if c = '\r' then ['\\', 'r']
  else if c = '\t' then ['\\', 't']
  else if c.toNat = 0 then ['\\', '0']
  else if isUnprintable c then ['\\', 'u', '{'] ++ hexadecimal c.toNat ++ ['}']
  else [c]

/-- A text in quotes. -/
def quoted (s : String) : String :=
  "\"" ++ String.ofList (s.toList.flatMap escape) ++ "\""

end Lox.Text
