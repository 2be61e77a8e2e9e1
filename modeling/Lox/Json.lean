/-
  Lox.Json
  ────────
  **DOCUMENTS.**

  A value of the JSON data model and its two texts: on one line without
  blanks, and over several lines with an indent of two.  Object members keep
  their order.
-/
import Lox.Decimal.Layout

namespace Lox

/-! ## §1. Documents. -/

/-- A document. -/
inductive Json where
  | null
  | natural (n : Nat)
  | number (x : Float)
  | string (s : String)
  | array (items : List Json)
  | object (members : List (String × Json))

namespace Json

/-- Numbers show the fewest digits that read back and always a point or an
exponent; what is no finite number has no text but `null`.  A half goes to
the even digit. -/
def numberLayout : Decimal.Layout where
  nan := "null"
  infinity := "null"
  negativeInfinity := "null"
  exactWhole := false
  tie := .even
  scientific := some ⟨-5, 16, true⟩

/-- A single member as a document: a variant with its contents. -/
def tagged (tag : String) (contents : Json) : Json :=
  .object [(tag, contents)]

/-! ## §2. Quoting. -/

/-- A digit of base sixteen. -/
def hexDigit (n : Nat) : Char :=
  if n < 10 then Char.ofNat (48 + n) else Char.ofNat (87 + n)

/-- A character inside quotes: only quotes, backslashes and what lies below
the space are escaped. -/
def escape (c : Char) : List Char :=
  if c = '"' then ['\\', '"']
  else if c = '\\' then ['\\', '\\']
  else if c = '\n' then ['\\', 'n']
  else if c = '\r' then ['\\', 'r']
  else if c = '\t' then ['\\', 't']
  else if c = '\x08' then ['\\', 'b']
  else if c = '\x0c' then ['\\', 'f']
  else if c.toNat < 32 then
    ['\\', 'u', '0', '0', hexDigit (c.toNat / 16), hexDigit (c.toNat % 16)]
  else [c]

/-- A text in quotes. -/
def quote (s : String) : String :=
  "\"" ++ String.ofList (s.toList.flatMap escape) ++ "\""

/-! ## §3. The two texts. -/

mutual

/-- A document on one line, without blanks. -/
def compact : Json → String
  | .null => "null"
  | .natural n => Nat.repr n
  | .number x => numberLayout.render x
  | .string s => quote s
  | .array items => "[" ++ compactItems items ++ "]"
  | .object members => "\x7b" ++ compactMembers members ++ "\x7d"

/-- Items with commas between them. -/
def compactItems : List Json → String
  | [] => ""
  | [item] => compact item
  | item :: rest => compact item ++ "," ++ compactItems rest

/-- Members with commas between them. -/
def compactMembers : List (String × Json) → String
  | [] => ""
  | [(key, value)] => quote key ++ ":" ++ compact value
  | (key, value) :: rest => quote key ++ ":" ++ compact value ++ "," ++ compactMembers rest

end

/-- A new line with an indent of two blanks for each level. -/
def newline (level : Nat) : String :=
  "\n" ++ String.ofList (List.replicate (2 * level) ' ')

mutual

/-- A document over several lines, its first line at `level`.  An empty list
or object stays on one line. -/
def pretty (level : Nat) : Json → String
  | .null => "null"
  | .natural n => Nat.repr n
  | .number x => numberLayout.render x
  | .string s => quote s
  | .array [] => "[]"
  | .array items => "[" ++ prettyItems (level + 1) items ++ newline level ++ "]"
  | .object [] => "\x7b\x7d"
  | .object members => "\x7b" ++ prettyMembers (level + 1) members ++ newline level ++ "\x7d"

/-- Items on lines of their own. -/
def prettyItems (level : Nat) : List Json → String
  | [] => ""
  | [item] => newline level ++ pretty level item
  | item :: rest => newline level ++ pretty level item ++ "," ++ prettyItems level rest

/-- Members on lines of their own. -/
def prettyMembers (level : Nat) : List (String × Json) → String
  | [] => ""
  | [(key, value)] => newline level ++ quote key ++ ": " ++ pretty level value
  | (key, value) :: rest =>
      newline level ++ quote key ++ ": " ++ pretty level value ++ ","
        ++ prettyMembers level rest

end

end Json

end Lox
