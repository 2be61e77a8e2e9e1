/-
  Lox.Syntax.Basic
  ────────────────
  **PROGRAMS AS TREES.**

  Expressions, statements and function declarations.  Each use of a variable,
  of `this` or of `super` is an occurrence: the token that spells it together
  with a number of its own, under which the scope analysis records how far
  away its binding is.  Loops with three clauses have no tree of their own:
  they are blocks and plain loops.
-/
import Lox.Token.Basic

namespace Lox

/-! ## §1. Expressions. -/

/-- A value written in the program. -/
inductive Literal where
  | number (x : Float)
  | string (s : String)
  | bool (b : Bool)
  | nil
  deriving Repr, DecidableEq

/-- A place where a name is used, with its own number. -/
structure Occurrence where
  id : Nat
  name : Token
  deriving Repr, DecidableEq

/-- Expressions. -/
inductive Expr where
  | literal (value : Literal)
  | unary (operator : Token) (right : Expr)
  | binary (left : Expr) (operator : Token) (right : Expr)
  /-- An operator that may leave its right operand alone. -/
  | logical (left : Expr) (operator : Token) (right : Expr)
  /-- An expression in parentheses. -/
  | grouping (inner : Expr)
  | variable (occurrence : Occurrence)
  | assign (target : Occurrence) (value : Expr)
  /-- A call; `paren` closes its arguments. -/
  | call (callee : Expr) (paren : Token) (arguments : List Expr)
  /-- A property of an object. -/
  | get (object : Expr) (name : Token)
  | set (object : Expr) (name : Token) (value : Expr)
  /-- A method of the superclass. -/
  | super (occurrence : Occurrence) (method : Token)
  | this (occurrence : Occurrence)
  deriving Repr

/-! ## §2. Statements. -/

/-- A function with the statements `σ` of its body. -/
structure FunctionDecl (σ : Type) where
  name : Token
  params : List Token
  body : List σ
  deriving Repr

/-- Statements. -/
inductive Stmt where
  | expression (e : Expr)
  | print (e : Expr)
  | var (name : Token) (initializer : Option Expr)
  | block (body : List Stmt)
  | ifElse (condition : Expr) (thenBranch : Stmt) (elseBranch : Option Stmt)
  | while (condition : Expr) (body : Stmt)
  | function (decl : FunctionDecl Stmt)
  | return (keyword : Token) (value : Option Expr)
  | class (name : Token) (superclass : Option Occurrence) (methods : List (FunctionDecl Stmt))
  deriving Repr

/-- The name of the method that sets up a new object. -/
def initializerName : String := "init"

/-- Whether a method sets up new objects. -/
def FunctionDecl.isInitializer {σ : Type} (d : FunctionDecl σ) : Bool :=
  d.name.lexeme == initializerName

/-- A loop with three clauses as a plain loop: the increment follows the body
in a block, the initializer stands before the loop in a block of its own, and
a missing condition always holds. -/
def Stmt.forLoop (initializer : Option Stmt) (condition increment : Option Expr)
    (body : Stmt) : Stmt :=
  let step := match increment with
    | some e => .block [body, .expression e]
    | none => body
  let loop := .while (condition.getD (.literal (.bool true))) step
  match initializer with
  | some s => .block [s, loop]
  | none => loop

end Lox
