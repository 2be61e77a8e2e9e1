/-
  Lox.Parse.Expression
  ────────────────────
  **READING AN EXPRESSION TOKEN BY TOKEN.**

  A partial expression is a stack of pending operators and open brackets,
  the innermost first, and what is expected next.  Feeding a token either
  takes it, or says that the expression was whole before it, or refuses it.
  An operator closes every pending operator that binds at least as tightly,
  so chains lean to the left; assignments stay pending until the expression
  or its bracket ends, so they lean to the right.
-/
import Lox.Diagnostic
import Lox.Syntax.Basic

namespace Lox.Parse

/-! ## §1. What reading keeps beside the tree. -/

/-- The next occurrence number, and the failures so far. -/
structure Ledger where
  nextId : Nat
  failures : Array Diagnostic

namespace Ledger

/-- Note a failure at a token. -/
def report (l : Ledger) (offender : Token) (fault : SyntaxFault) : Ledger :=
  { l with failures := l.failures.push (.syntactic offender fault) }

/-- Number an occurrence of a name. -/
def number (l : Ledger) (name : Token) : Occurrence × Ledger :=
  (⟨l.nextId, name⟩, { l with nextId := l.nextId + 1 })

end Ledger

/-- The most arguments or parameters that a list may have. -/
def maxArity : Nat := 255

/-! ## §2. Operators. -/

/-- How tightly a binary operator binds. -/
def bindingLevel? : TokenKind → Option Nat
  | .kwOr => some 1
  | .kwAnd => some 2
  | .bangEqual | .equalEqual => some 3
  | .greater | .greaterEqual | .less | .lessEqual => some 4
  | .minus | .plus => some 5
  | .slash | .star => some 6
  | _ => none

/-- A binary operator with both operands; `and` and `or` are logical. -/
def joined (left : Expr) (operator : Token) (right : Expr) : Expr :=
  match operator.kind with
  | .kwOr | .kwAnd => .logical left operator right
  | _ => .binary left operator right

/-- An assignment to an expression: variables and properties can be assigned
to, and nothing else. -/
def assigned? (target value : Expr) : Option Expr :=
  match target with
  | .variable occurrence => some (.assign occurrence value)
  | .get object name => some (.set object name value)
  | _ => none

/-- An operator or open bracket that waits for the expression after it. -/
inductive Pending where
  /-- A parenthesis around an expression. -/
  | group
  /-- A call whose earlier arguments are complete. -/
  | arguments (callee : Expr) (earlier : Array Expr)
  /-- An assignment; `equals` is its sign. -/
  | assignment (target : Expr) (equals : Token)
  | binary (left : Expr) (operator : Token) (level : Nat)
  | unary (operator : Token)

/-- Close the pending operators that bind at least as tightly as `level`. -/
def closeOperators (level : Nat) : List Pending → Expr → List Pending × Expr
  | .unary operator :: rest, e => closeOperators level rest (.unary operator e)
  | .binary left operator l :: rest, e =>
      if level ≤ l then closeOperators level rest (joined left operator e)
      else (.binary left operator l :: rest, e)
  | pending, e => (pending, e)

/-- Close everything that is pending up to the innermost open bracket.  A
value assigned to what cannot be assigned to is dropped and reported. -/
def closeAll : List Pending → Expr → Ledger → List Pending × Expr × Ledger
  | .unary operator :: rest, e, l => closeAll rest (.unary operator e) l
  | .binary left operator _ :: rest, e, l => closeAll rest (joined left operator e) l
  | .assignment target equals :: rest, e, l =>
      match assigned? target e with
      | some e' => closeAll rest e' l
      | none => closeAll rest target (l.report equals .assignmentTarget)
  | pending, e, l => (pending, e, l)

/-! ## §3. Partial expressions. -/

/-- What is expected next. -/
inductive Phase where
  /-- An operand. -/
  | operand
  /-- An argument, or the end of an empty list of arguments. -/
  | firstArgument (callee : Expr)
  /-- An argument after a comma. -/
  | nextArgument (callee : Expr) (earlier : Array Expr)
  /-- What may follow an operand. -/
  | after (e : Expr)
  /-- The name of a property. -/
  | property (object : Expr)
  /-- The dot after `super`. -/
  | superDot (keyword : Token)
  /-- The name of a method of the superclass. -/
  | superMethod (keyword : Token)

/-- An expression of which some tokens have been read. -/
structure Partial where
  pending : List Pending
  phase : Phase

/-- An expression before its first token. -/
def Partial.empty : Partial := ⟨[], .operand⟩

/-- What becomes of an expression when a token is offered to it. -/
inductive Offer where
  /-- The token belongs to it. -/
  | taken (p : Partial)
  /-- It was whole before the token. -/
  | whole (e : Expr)
  /-- The token cannot stand here. -/
  | refused (fault : SyntaxFault)

/-- Offer a token where an operand must start. -/
def offerOperand (pending : List Pending) (t : Token) (l : Ledger) : Offer × Ledger :=
  match t.kind with
  | .kwFalse => (.taken ⟨pending, .after (.literal (.bool false))⟩, l)
  | .kwTrue => (.taken ⟨pending, .after (.literal (.bool true))⟩, l)
  | .kwNil => (.taken ⟨pending, .after (.literal .nil)⟩, l)
  | .number x => (.taken ⟨pending, .after (.literal (.number x))⟩, l)
  | .string s => (.taken ⟨pending, .after (.literal (.string s))⟩, l)
  | .kwSuper => (.taken ⟨pending, .superDot t⟩, l)
  | .kwThis =>
      let (occurrence, l) := l.number t
      (.taken ⟨pending, .after (.this occurrence)⟩, l)
  | .identifier =>
      let (occurrence, l) := l.number t
      (.taken ⟨pending, .after (.variable occurrence)⟩, l)
  | .leftParen => (.taken ⟨.group :: pending, .operand⟩, l)
  | .bang | .minus => (.taken ⟨.unary t :: pending, .operand⟩, l)
  | _ => (.refused .expression, l)

/-- Offer a token that continues no operand: what is pending is closed, and
the token may close a bracket or separate arguments. -/
def offerEnd (pending : List Pending) (e : Expr) (t : Token) (l : Ledger) : Offer × Ledger :=
  match closeAll pending e l with
  | (.group :: rest, e, l) =>
      match t.kind with
      | .rightParen => (.taken ⟨rest, .after (.grouping e)⟩, l)
      | _ => (.refused .groupClose, l)
  | (.arguments callee earlier :: rest, e, l) =>
      match t.kind with
      | .comma => (.taken ⟨rest, .nextArgument callee (earlier.push e)⟩, l)
      | .rightParen =>
          (.taken ⟨rest, .after (.call callee t (earlier.push e).toList)⟩, l)
      | _ => (.refused .argumentsClose, l)
  | (_, e, l) => (.whole e, l)

/-- Offer a token after an operand. -/
def offerAfter (pending : List Pending) (e : Expr) (t : Token) (l : Ledger) : Offer × Ledger :=
  match t.kind, bindingLevel? t.kind with
  | .leftParen, _ => (.taken ⟨pending, .firstArgument e⟩, l)
  | .dot, _ => (.taken ⟨pending, .property e⟩, l)
  | .equal, _ =>
      let (rest, e) := closeOperators 0 pending e
      (.taken ⟨.assignment e t :: rest, .operand⟩, l)
  | _, some level =>
      let (rest, e) := closeOperators level pending e
      (.taken ⟨.binary e t level :: rest, .operand⟩, l)
  | _, none => offerEnd pending e t l

/-- **Offer the next token** to a partial expression. -/
def Partial.offer (p : Partial) (t : Token) (l : Ledger) : Offer × Ledger :=
  match p.phase with
  | .operand => offerOperand p.pending t l
  | .firstArgument callee =>
      match t.kind with
      | .rightParen => (.taken ⟨p.pending, .after (.call callee t [])⟩, l)
      | _ => offerOperand (.arguments callee #[] :: p.pending) t l
  | .nextArgument callee earlier =>
      let l := if maxArity ≤ earlier.size then l.report t .tooManyArguments else l
      offerOperand (.arguments callee earlier :: p.pending) t l
  | .after e => offerAfter p.pending e t l
  | .property object =>
      match t.kind with
      | .identifier => (.taken ⟨p.pending, .after (.get object t)⟩, l)
      | _ => (.refused .propertyName, l)
  | .superDot keyword =>
      match t.kind with
      | .dot => (.taken ⟨p.pending, .superMethod keyword⟩, l)
      | _ => (.refused .superDot, l)
  | .superMethod keyword =>
      match t.kind with
      | .identifier =>
          let (occurrence, l) := l.number keyword
          (.taken ⟨p.pending, .after (.super occurrence t)⟩, l)
      | _ => (.refused .superMethodName, l)

/-! ## §4. An expression alone. -/

/-- What reading a lone expression yields. -/
structure LoneExpression where
  expression : Option Expr
  failures : List Diagnostic
  nextId : Nat

/-- End a lone expression without a tree. -/
def LoneExpression.failed (l : Ledger) (offender : Token) (fault : SyntaxFault) : LoneExpression :=
  ⟨none, (l.report offender fault).failures.toList, l.nextId⟩

/-- Read a lone expression from a partial one on.  It must end where the
tokens do; the first token that cannot stand where it does ends the reading. -/
def loneExpressionFrom (p : Partial) (l : Ledger) : List Token → LoneExpression
  | [] => ⟨none, l.failures.toList, l.nextId⟩
  | t :: rest =>
      match p.offer t l with
      | (.taken p, l) => loneExpressionFrom p l rest
      | (.refused fault, l) => .failed l t fault
      | (.whole e, l) =>
          match t.kind with
          | .eof => ⟨some e, l.failures.toList, l.nextId⟩
          | _ => .failed l t .endOfExpression

/-- Read tokens that must be one expression; its occurrences are numbered
from `firstId` on. -/
def loneExpression (firstId : Nat) (tokens : List Token) : LoneExpression :=
  loneExpressionFrom .empty ⟨firstId, #[]⟩ tokens

end Lox.Parse
