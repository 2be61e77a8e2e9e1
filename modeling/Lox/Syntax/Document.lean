/-
  Lox.Syntax.Document
  ───────────────────
  **TREES AS DOCUMENTS.**

  A program as a JSON document: each node is tagged with its kind and lists
  its parts in a fixed order, tokens with their lines and occurrences with
  their numbers.
-/
import Lox.Syntax.Basic

namespace Lox

/-! ## §1. Expressions. -/

/-- A literal as a document. -/
def Literal.toJson : Literal → Json
  | .number x => .tagged "Number" (.number x)
  | .string s => .tagged "Str" (.string s)
  | .bool true => .string "True"
  | .bool false => .string "False"
  | .nil => .string "Nil"

/-- A variable as a document. -/
def Occurrence.toJson (o : Occurrence) : Json :=
  .tagged "Variable" (.object [("id", .natural o.id), ("name", o.name.toJson)])

mutual

/-- An expression as a document. -/
def Expr.toJson : Expr → Json
  | .literal value => .tagged "Literal" value.toJson
  | .unary operator right =>
      .tagged "Unary" (.object [("operator", operator.toJson), ("right", right.toJson)])
  | .binary left operator right =>
      .tagged "Binary" (.object
        [("left", left.toJson), ("operator", operator.toJson), ("right", right.toJson)])
  | .logical left operator right =>
      .tagged "Logical" (.object
        [("left", left.toJson), ("operator", operator.toJson), ("right", right.toJson)])
  | .grouping inner => .tagged "Grouping" inner.toJson
  | .variable occurrence => occurrence.toJson
  | .assign target value =>
      .tagged "Assign" (.object
        [("id", .natural target.id), ("name", target.name.toJson), ("value", value.toJson)])
  | .call callee paren arguments =>
      .tagged "Call" (.object
        [("callee", callee.toJson), ("paren", paren.toJson),
         ("arguments", .array (toJsonList arguments))])
  | .get object name =>
      .tagged "Get" (.object [("object", object.toJson), ("name", name.toJson)])
  | .set object name value =>
      .tagged "Set" (.object
        [("object", object.toJson), ("name", name.toJson), ("value", value.toJson)])
  | .super occurrence method =>
      .tagged "Super" (.object
        [("id", .natural occurrence.id), ("keyword", occurrence.name.toJson),
         ("method", method.toJson)])
  | .this occurrence =>
      .tagged "This" (.object
        [("id", .natural occurrence.id), ("keyword", occurrence.name.toJson)])

/-- Expressions as documents. -/
def Expr.toJsonList : List Expr → List Json
  | [] => []
  | e :: rest => e.toJson :: toJsonList rest

end

/-- An expression that may be missing. -/
def Expr.toJson? : Option Expr → Json
  | none => .null
  | some e => e.toJson

/-! ## §2. Statements. -/

mutual

/-- A statement as a document. -/
def Stmt.toJson : Stmt → Json
  | .expression e => .tagged "Expression" e.toJson
  | .print e => .tagged "Print" e.toJson
  | .var name initializer =>
      .tagged "Var" (.object
        [("name", name.toJson), ("initializer", Expr.toJson? initializer)])
  | .block body => .tagged "Block" (.array (toJsonList body))
  | .ifElse condition thenBranch elseBranch =>
      .tagged "If" (.object
        [("condition", condition.toJson), ("then_branch", thenBranch.toJson),
         ("else_branch", toJson? elseBranch)])
  | .while condition body =>
      .tagged "While" (.object [("condition", condition.toJson), ("body", body.toJson)])
  | .function decl => .tagged "Function" (functionJson decl)
  | .return keyword value =>
      .tagged "Return" (.object
        [("keyword", keyword.toJson), ("value", Expr.toJson? value)])
  | .class name superclass methods =>
      .tagged "Class" (.object
        [("name", name.toJson), ("superclass", (superclass.map Occurrence.toJson).getD .null),
         ("methods", .array (functionsJson methods))])

/-- A statement that may be missing. -/
def Stmt.toJson? : Option Stmt → Json
  | none => .null
  | some s => s.toJson

/-- Statements as documents. -/
def Stmt.toJsonList : List Stmt → List Json
  | [] => []
  | s :: rest => s.toJson :: toJsonList rest

/-- A function as a document. -/
def Stmt.functionJson : FunctionDecl Stmt → Json
  | ⟨name, params, body⟩ =>
      .object
        [("name", name.toJson), ("params", .array (params.map Token.toJson)),
         ("body", .array (toJsonList body))]

/-- Functions as documents. -/
def Stmt.functionsJson : List (FunctionDecl Stmt) → List Json
  | [] => []
  | f :: rest => functionJson f :: functionsJson rest

end

end Lox
