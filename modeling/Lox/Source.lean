/-
  Lox.Source
  ──────────
  **FROM TEXT TO TREES.**

  Scanning and reading together.  The failures of a text are its lexical ones,
  then those of the grammar.
-/
import Lox.Parse.Program
import Lox.Token.Scan

namespace Lox.Source

/-- Read a text as a program; its occurrences are numbered from `firstId` on. -/
def program (firstId : Nat) (source : String) : Parse.Program :=
  let scanned := Scanned.ofSource source
  let parsed := Parse.program firstId scanned.tokens
  { parsed with failures := scanned.failures ++ parsed.failures }

/-- Read a text as one expression. -/
def expression (source : String) : Parse.LoneExpression :=
  let scanned := Scanned.ofSource source
  let parsed := Parse.loneExpression 0 scanned.tokens
  { parsed with failures := scanned.failures ++ parsed.failures }

end Lox.Source
