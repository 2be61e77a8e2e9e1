/-
  Lox.Proofs.Grammar.Basic
  ────────────────────────
  **THE GRAMMAR OF THE LANGUAGE.**

  Which lists of tokens are expressions, statements and programs, rule by
  rule, each with the tree it stands for:

      program        → declaration* EOF
      declaration    → classDecl | funDecl | varDecl | statement
      classDecl      → "class" IDENT ( "<" IDENT )? "{" function* "}"
      funDecl        → "fun" function
      function       → IDENT "(" parameters? ")" block
      varDecl        → "var" IDENT ( "=" expression )? ";"
      statement      → exprStmt | forStmt | ifStmt | printStmt
                     | returnStmt | whileStmt | block
      expression     → assignment
      assignment     → ( call "." )? IDENT "=" assignment | logic_or
      logic_or, logic_and, equality, comparison, term, factor
                     → operand ( operator operand )*
      unary          → ( "!" | "-" ) unary | call
      call           → primary ( "(" arguments? ")" | "." IDENT )*
      primary        → NUMBER | STRING | "true" | "false" | "nil" | "this"
                     | IDENT | "(" expression ")" | "super" "." IDENT

  A list of parameters or arguments has at most `maxArity` members.  The
  number of an occurrence is left open: no rule depends on it.  Nothing here
  mentions how a text is read.
-/
import Lox.Parse.Program

namespace Lox.Grammar

open Parse (maxArity)

/-! ## §1. Expressions. -/

/-- The levels of the binary operators, the loosest first. -/
inductive Level where
  | logicOr
  | logicAnd
  | equality
  | comparison
  | term
  | factor
  deriving DecidableEq

/-- The kinds of expression that the grammar tells apart. -/
inductive Nonterminal where
  | expression
  | assignment
  | binary (l : Level)
  | unary
  | call
  | primary
  deriving DecidableEq

namespace Level

/-- The operators of a level. -/
def operators : Level → List TokenKind
  | logicOr => [.kwOr]
  | logicAnd => [.kwAnd]
  | equality => [.bangEqual, .equalEqual]
  | comparison => [.greater, .greaterEqual, .less, .lessEqual]
  | term => [.minus, .plus]
  | factor => [.slash, .star]

/-- What the operators of a level stand between. -/
def operand : Level → Nonterminal
  | logicOr => .binary logicAnd
  | logicAnd => .binary equality
  | equality => .binary comparison
  | comparison => .binary term
  | term => .binary factor
  | factor => .unary

/-- The tree of an operator with its operands. -/
def node : Level → Expr → Token → Expr → Expr
  | logicOr | logicAnd => .logical
  | _ => .binary

end Level

mutual

/-- **Tokens that form an expression of a kind**, and its tree. -/
inductive Derives : Nonterminal → List Token → Expr → Prop where
  | expression {w e} :
      Derives .assignment w e → Derives .expression w e
  /-- An assignment to a variable. -/
  | assign {name equals w value} (id : Nat) :
      name.kind = .identifier → equals.kind = .equal → Derives .assignment w value →
      Derives .assignment (name :: equals :: w) (.assign ⟨id, name⟩ value)
  /-- An assignment to a property. -/
  | set {wo object dot name equals w value} :
      Derives .call wo object → dot.kind = .dot → name.kind = .identifier →
      equals.kind = .equal → Derives .assignment w value →
      Derives .assignment (wo ++ dot :: name :: equals :: w) (.set object name value)
  | logic {w e} :
      Derives (.binary .logicOr) w e → Derives .assignment w e
  | operand {l : Level} {w e} :
      Derives l.operand w e → Derives (.binary l) w e
  /-- A chain of operators of one level leans to the left. -/
  | chain {l : Level} {w left operator w' right} :
      Derives (.binary l) w left → operator.kind ∈ l.operators → Derives l.operand w' right →
      Derives (.binary l) (w ++ operator :: w') (l.node left operator right)
  | unary {operator w e} :
      operator.kind = .bang ∨ operator.kind = .minus → Derives .unary w e →
      Derives .unary (operator :: w) (.unary operator e)
  | noUnary {w e} :
      Derives .call w e → Derives .unary w e
  | primary {w e} :
      Derives .primary w e → Derives .call w e
  | callEmpty {w callee lparen rparen} :
      Derives .call w callee → lparen.kind = .leftParen → rparen.kind = .rightParen →
      Derives .call (w ++ [lparen, rparen]) (.call callee rparen [])
  | call {w callee lparen wa arguments rparen} :
      Derives .call w callee → lparen.kind = .leftParen → Arguments wa arguments →
      arguments.length ≤ maxArity → rparen.kind = .rightParen →
      Derives .call (w ++ lparen :: (wa ++ [rparen])) (.call callee rparen arguments)
  | get {w object dot name} :
      Derives .call w object → dot.kind = .dot → name.kind = .identifier →
      Derives .call (w ++ [dot, name]) (.get object name)
  | number {t x} :
      t.kind = .number x → Derives .primary [t] (.literal (.number x))
  | string {t s} :
      t.kind = .string s → Derives .primary [t] (.literal (.string s))
  | true {t} :
      t.kind = .kwTrue → Derives .primary [t] (.literal (.bool true))
  | false {t} :
      t.kind = .kwFalse → Derives .primary [t] (.literal (.bool false))
  | nil {t} :
      t.kind = .kwNil → Derives .primary [t] (.literal .nil)
  | this {t} (id : Nat) :
      t.kind = .kwThis → Derives .primary [t] (.this ⟨id, t⟩)
  | name {t} (id : Nat) :
      t.kind = .identifier → Derives .primary [t] (.variable ⟨id, t⟩)
  | group {lparen w e rparen} :
      lparen.kind = .leftParen → Derives .expression w e → rparen.kind = .rightParen →
      Derives .primary (lparen :: (w ++ [rparen])) (.grouping e)
  | super {keyword dot method} (id : Nat) :
      keyword.kind = .kwSuper → dot.kind = .dot → method.kind = .identifier →
      Derives .primary [keyword, dot, method] (.super ⟨id, keyword⟩ method)

/-- One or more expressions with commas between them. -/
inductive Arguments : List Token → List Expr → Prop where
  | one {w e} :
      Derives .expression w e → Arguments w [e]
  | more {w es comma w' e} :
      Arguments w es → comma.kind = .comma → Derives .expression w' e →
      Arguments (w ++ comma :: w') (es ++ [e])

end

/-- An expression that may be left out. -/
inductive Optional : List Token → Option Expr → Prop where
  | none : Optional [] none
  | some {w e} : Derives .expression w e → Optional w (some e)

/-! ## §2. Statements without statements inside. -/

/-- `"var" IDENT ( "=" expression )? ";"` -/
inductive VarDecl : List Token → Stmt → Prop where
  | empty {keyword name semicolon} :
      keyword.kind = .kwVar → name.kind = .identifier → semicolon.kind = .semicolon →
      VarDecl [keyword, name, semicolon] (.var name none)
  | value {keyword name equals w e semicolon} :
      keyword.kind = .kwVar → name.kind = .identifier → equals.kind = .equal →
      Derives .expression w e → semicolon.kind = .semicolon →
      VarDecl (keyword :: name :: equals :: (w ++ [semicolon])) (.var name (some e))

/-- `expression ";"` -/
inductive ExprStmt : List Token → Stmt → Prop where
  | mk {w e semicolon} :
      Derives .expression w e → semicolon.kind = .semicolon →
      ExprStmt (w ++ [semicolon]) (.expression e)

/-- `varDecl | exprStmt | ";"` -/
inductive ForInitializer : List Token → Option Stmt → Prop where
  | var {w s} : VarDecl w s → ForInitializer w (some s)
  | expression {w s} : ExprStmt w s → ForInitializer w (some s)
  | none {semicolon} : semicolon.kind = .semicolon → ForInitializer [semicolon] none

/-- `( "<" IDENT )?` -/
inductive Superclass : List Token → Option Occurrence → Prop where
  | none : Superclass [] none
  | some {less name} (id : Nat) :
      less.kind = .less → name.kind = .identifier → Superclass [less, name] (some ⟨id, name⟩)

/-- One or more names with commas between them. -/
inductive Parameters : List Token → List Token → Prop where
  | one {name} : name.kind = .identifier → Parameters [name] [name]
  | more {w params comma name} :
      Parameters w params → comma.kind = .comma → name.kind = .identifier →
      Parameters (w ++ [comma, name]) (params ++ [name])

/-- `"(" parameters? ")"` -/
inductive ParameterList : List Token → List Token → Prop where
  | empty {lparen rparen} :
      lparen.kind = .leftParen → rparen.kind = .rightParen → ParameterList [lparen, rparen] []
  | some {lparen w params rparen} :
      lparen.kind = .leftParen → Parameters w params → params.length ≤ maxArity →
      rparen.kind = .rightParen → ParameterList (lparen :: (w ++ [rparen])) params

/-! ## §3. Declarations and statements. -/

mutual

/-- **Tokens that form a declaration**, and its tree. -/
inductive Declaration : List Token → Stmt → Prop where
  | classDecl {keyword name ws parent lbrace wm methods rbrace} :
      keyword.kind = .kwClass → name.kind = .identifier → Superclass ws parent →
      lbrace.kind = .leftBrace → Functions wm methods → rbrace.kind = .rightBrace →
      Declaration (keyword :: name :: (ws ++ lbrace :: (wm ++ [rbrace])))
        (.class name parent methods)
  | funDecl {keyword w decl} :
      keyword.kind = .kwFun → Function w decl → Declaration (keyword :: w) (.function decl)
  | varDecl {w s} : VarDecl w s → Declaration w s
  | statement {w s} : Statement w s → Declaration w s

/-- `declaration*` -/
inductive Declarations : List Token → List Stmt → Prop where
  | nil : Declarations [] []
  | snoc {w ss w' s} :
      Declarations w ss → Declaration w' s → Declarations (w ++ w') (ss ++ [s])

/-- `"{" declaration* "}"` -/
inductive Block : List Token → List Stmt → Prop where
  | mk {lbrace w ss rbrace} :
      lbrace.kind = .leftBrace → Declarations w ss → rbrace.kind = .rightBrace →
      Block (lbrace :: (w ++ [rbrace])) ss

/-- `IDENT "(" parameters? ")" block` -/
inductive Function : List Token → FunctionDecl Stmt → Prop where
  | mk {name wp params wb body} :
      name.kind = .identifier → ParameterList wp params → Block wb body →
      Function (name :: (wp ++ wb)) ⟨name, params, body⟩

/-- `function*` -/
inductive Functions : List Token → List (FunctionDecl Stmt) → Prop where
  | nil : Functions [] []
  | snoc {w ds w' d} :
      Functions w ds → Function w' d → Functions (w ++ w') (ds ++ [d])

/-- **Tokens that form a statement**, and its tree.  An `else` may belong to
any `if` before it: the rules do not say to which. -/
inductive Statement : List Token → Stmt → Prop where
  | exprStmt {w s} : ExprStmt w s → Statement w s
  | forStmt {keyword lparen wi initializer wc condition semicolon wn increment rparen wb body} :
      keyword.kind = .kwFor → lparen.kind = .leftParen → ForInitializer wi initializer →
      Optional wc condition → semicolon.kind = .semicolon → Optional wn increment →
      rparen.kind = .rightParen → Statement wb body →
      Statement (keyword :: lparen :: (wi ++ (wc ++ semicolon :: (wn ++ rparen :: wb))))
        (.forLoop initializer condition increment body)
  | ifStmt {keyword lparen w condition rparen wt thenBranch} :
      keyword.kind = .kwIf → lparen.kind = .leftParen → Derives .expression w condition →
      rparen.kind = .rightParen → Statement wt thenBranch →
      Statement (keyword :: lparen :: (w ++ rparen :: wt)) (.ifElse condition thenBranch none)
  | ifElse {keyword lparen w condition rparen wt thenBranch kwElse we elseBranch} :
      keyword.kind = .kwIf → lparen.kind = .leftParen → Derives .expression w condition →
      rparen.kind = .rightParen → Statement wt thenBranch → kwElse.kind = .kwElse →
      Statement we elseBranch →
      Statement (keyword :: lparen :: (w ++ rparen :: (wt ++ kwElse :: we)))
        (.ifElse condition thenBranch (some elseBranch))
  | printStmt {keyword w e semicolon} :
      keyword.kind = .kwPrint → Derives .expression w e → semicolon.kind = .semicolon →
      Statement (keyword :: (w ++ [semicolon])) (.print e)
  | returnStmt {keyword w value semicolon} :
      keyword.kind = .kwReturn → Optional w value → semicolon.kind = .semicolon →
      Statement (keyword :: (w ++ [semicolon])) (.return keyword value)
  | whileStmt {keyword lparen w condition rparen wb body} :
      keyword.kind = .kwWhile → lparen.kind = .leftParen → Derives .expression w condition →
      rparen.kind = .rightParen → Statement wb body →
      Statement (keyword :: lparen :: (w ++ rparen :: wb)) (.while condition body)
  | block {w ss} : Block w ss → Statement w (.block ss)

end

/-- `declaration* EOF` -/
inductive Program : List Token → List Stmt → Prop where
  | mk {w ss eof} : Declarations w ss → eof.kind = .eof → Program (w ++ [eof]) ss

/-- `expression EOF` -/
inductive LoneExpression : List Token → Expr → Prop where
  | mk {w e eof} : Derives .expression w e → eof.kind = .eof → LoneExpression (w ++ [eof]) e

end Lox.Grammar
