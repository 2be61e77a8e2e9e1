/-
  Lox.Syntax.Outline
  ──────────────────
  **TREES IN PARENTHESES.**

  A program as nested lists with the operator or the keyword in front.  Names
  and strings stand as they are; token lines and occurrence numbers do not
  show.
-/
import Lox.Syntax.Basic

namespace Lox

/-! ## §1. Expressions. -/

/-- Numbers in an outline: a whole number ends in `.0`, and there is never an
exponent. -/
def Literal.numberLayout : Decimal.Layout := {}

/-- A literal in an outline. -/
def Literal.outline : Literal → String
  | .number x => numberLayout.render x
  | .string s => s
  | .bool true => "true"
  | .bool false => "false"
  | .nil => "nil"

mutual

/-- An expression as a nested list. -/
def Expr.outline : Expr → String
  | .literal value => value.outline
  | .unary operator right => "(" ++ operator.lexeme ++ " " ++ right.outline ++ ")"
  | .binary left operator right =>
      "(" ++ operator.lexeme ++ " " ++ left.outline ++ " " ++ right.outline ++ ")"
  | .logical left operator right =>
      "(" ++ operator.lexeme ++ " " ++ left.outline ++ " " ++ right.outline ++ ")"
  | .grouping inner => "(group " ++ inner.outline ++ ")"
  | .variable occurrence => occurrence.name.lexeme
  | .assign target value => "(= " ++ target.name.lexeme ++ " " ++ value.outline ++ ")"
  | .call callee _ arguments => "(call " ++ callee.outline ++ outlineArguments arguments ++ ")"
  | .get object name => "(. " ++ object.outline ++ " " ++ name.lexeme ++ ")"
  | .set object name value =>
      "(= (. " ++ object.outline ++ " " ++ name.lexeme ++ ") " ++ value.outline ++ ")"
  | .super _ method => "(super " ++ method.lexeme ++ ")"
  | .this _ => "this"

/-- Arguments, each after a blank. -/
def Expr.outlineArguments : List Expr → String
  | [] => ""
  | e :: rest => " " ++ e.outline ++ outlineArguments rest

end

/-! ## §2. Statements. -/

mutual

/-- A statement as a nested list. -/
def Stmt.outline : Stmt → String
  | .expression e => "(; " ++ e.outline ++ ")"
  | .print e => "(print " ++ e.outline ++ ")"
  | .var name none => "(var " ++ name.lexeme ++ ")"
  | .var name (some e) => "(var " ++ name.lexeme ++ " " ++ e.outline ++ ")"
  | .block body => "(block" ++ outlineBody body ++ ")"
  | .ifElse condition thenBranch none =>
      "(if " ++ condition.outline ++ " " ++ thenBranch.outline ++ ")"
  | .ifElse condition thenBranch (some elseBranch) =>
      "(if " ++ condition.outline ++ " " ++ thenBranch.outline ++ " " ++ elseBranch.outline ++ ")"
  | .while condition body => "(while " ++ condition.outline ++ " " ++ body.outline ++ ")"
  | .function decl => outlineFunction "fun" decl
  | .return _ none => "(return)"
  | .return _ (some e) => "(return " ++ e.outline ++ ")"
  | .class name superclass methods =>
      let parent := match superclass with
        | some occurrence => " < " ++ occurrence.name.lexeme
        | none => ""
      "(class " ++ name.lexeme ++ parent ++ outlineMethods methods ++ ")"

/-- Statements, each after a blank. -/
def Stmt.outlineBody : List Stmt → String
  | [] => ""
  | s :: rest => " " ++ s.outline ++ outlineBody rest

/-- A function under a tag. -/
def Stmt.outlineFunction (tag : String) : FunctionDecl Stmt → String
  | ⟨name, params, body⟩ =>
      "(" ++ tag ++ " " ++ name.lexeme ++ "(" ++ " ".intercalate (params.map Token.lexeme) ++ ")"
        ++ outlineBody body ++ ")"

/-- Methods, each after a blank. -/
def Stmt.outlineMethods : List (FunctionDecl Stmt) → String
  | [] => ""
  | m :: rest => " " ++ outlineFunction "method" m ++ outlineMethods rest

end

end Lox
