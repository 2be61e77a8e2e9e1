/-
  Lox.Parse.Program
  ─────────────────
  **READING A PROGRAM TOKEN BY TOKEN.**

  A reader knows what it expects next, which statements are open around it
  (the innermost first), and which top-level statements are complete.  Every
  token is offered to it once.  A token that cannot stand where it does is
  reported, the declaration around it is dropped, and tokens are skipped up
  to a place where a new declaration is likely to start.

  A finished statement waits for one more token, because an `else` belongs to
  the innermost open `if` it can belong to.
-/
import Lox.Parse.Expression

namespace Lox.Parse

/-! ## §1. Open statements. -/

/-- What a class declaration starts with. -/
structure ClassHead where
  name : Token
  superclass : Option Occurrence

/-- Where a function is declared: on its own, or in a class after some
methods. -/
inductive Owner where
  | function
  | method (head : ClassHead) (earlier : Array (FunctionDecl Stmt))

/-- What a function with this owner is called. -/
def Owner.kind : Owner → FunctionKind
  | .function => .function
  | .method .. => .method

/-- A statement that is open around the place that is read. -/
inductive Context where
  /-- A block with its complete statements. -/
  | block (earlier : Array Stmt)
  /-- The body of a function with its complete statements. -/
  | body (owner : Owner) (name : Token) (params : Array Token) (earlier : Array Stmt)
  /-- What is done if a condition holds. -/
  | thenBranch (condition : Expr)
  /-- What is done if a condition does not hold. -/
  | elseBranch (condition : Expr) (thenBranch : Stmt)
  /-- The body of a loop. -/
  | whileBody (condition : Expr)
  /-- The body of a loop with three clauses. -/
  | forBody (initializer : Option Stmt) (condition increment : Option Expr)

/-- Whether declarations can stand directly in a context. -/
def Context.isBlock : Context → Bool
  | .block _ | .body .. => true
  | _ => false

/-- Where a variable is declared. -/
inductive VariablePlace where
  | declaration
  | forClause

/-- What an expression is read for. -/
inductive Clause where
  | statement
  | print
  | variable (place : VariablePlace) (name : Token)
  | return (keyword : Token)
  | ifCondition
  | whileCondition
  | forInitializer
  | forCondition (initializer : Option Stmt)
  | forIncrement (initializer : Option Stmt) (condition : Option Expr)

/-- What is expected next. -/
inductive Expect where
  /-- A declaration, or the end of the block around it. -/
  | declaration
  /-- A statement that is no declaration. -/
  | statement
  /-- An `else` that belongs to this complete statement, or what follows. -/
  | finished (s : Stmt)
  /-- More of an expression. -/
  | expression (clause : Clause) (p : Partial)
  | className
  | superclass (name : Token)
  | superclassName (name : Token)
  | classBodyOpen (head : ClassHead)
  /-- A method, or the end of the class body. -/
  | member (head : ClassHead) (methods : Array (FunctionDecl Stmt))
  | functionName (owner : Owner)
  | parametersOpen (owner : Owner) (name : Token)
  /-- A parameter, or the end of an empty list. -/
  | firstParameter (owner : Owner) (name : Token)
  /-- A parameter after a comma. -/
  | nextParameter (owner : Owner) (name : Token) (params : Array Token)
  /-- A comma, or the end of the list. -/
  | afterParameter (owner : Owner) (name : Token) (params : Array Token)
  | functionBodyOpen (owner : Owner) (name : Token) (params : Array Token)
  | variableName (place : VariablePlace)
  /-- The value of a variable, or the end of its declaration. -/
  | variableValue (place : VariablePlace) (name : Token)
  | ifOpen
  | whileOpen
  | forOpen
  | forInitializer
  | forCondition (initializer : Option Stmt)
  | forIncrement (initializer : Option Stmt) (condition : Option Expr)
  | returnValue (keyword : Token)
  /-- A place to start again; `afterSemicolon` tells what was skipped last. -/
  | recovery (afterSemicolon : Bool)

/-- A program of which some tokens have been read. -/
structure Reader where
  expect : Expect
  contexts : List Context
  program : Array Stmt
  ledger : Ledger

namespace Reader

/-- A program before its first token. -/
def start (firstId : Nat) : Reader :=
  ⟨.declaration, [], #[], ⟨firstId, #[]⟩⟩

/-- Expect something else. -/
def expecting (r : Reader) (expect : Expect) : Reader :=
  { r with expect }

/-- Open a statement and expect something inside it. -/
def opening (r : Reader) (context : Context) (expect : Expect) : Reader :=
  { r with expect, contexts := context :: r.contexts }

/-! ## §2. Failing and starting again. -/

/-- Note a failure at a token. -/
def report (r : Reader) (t : Token) (fault : SyntaxFault) : Reader :=
  { r with ledger := r.ledger.report t fault }

/-- A token cannot stand here: report it, drop the declaration around it, and
skip it. -/
def fail (r : Reader) (t : Token) (fault : SyntaxFault) : Reader :=
  { r.report t fault with
    expect := .recovery (t.kind = .semicolon)
    contexts := r.contexts.dropWhile (!·.isBlock) }

/-- The tokens that a declaration is likely to start with. -/
def startsDeclaration : TokenKind → Bool
  | .kwClass | .kwFun | .kwVar | .kwFor | .kwIf | .kwWhile | .kwPrint | .kwReturn => true
  | _ => false

/-! ## §3. Finishing a statement. -/

/-- Whether an `else` can belong to a finished statement: some `if` without
one is open around it, inside the innermost block. -/
def awaitsElse : List Context → Bool
  | .thenBranch _ :: _ => true
  | .elseBranch .. :: rest | .whileBody _ :: rest | .forBody .. :: rest => awaitsElse rest
  | _ => false

/-- Put a finished statement where it belongs when an `else` follows: it ends
the first branch of the innermost `if` that has no second one. -/
def placeBeforeElse (r : Reader) : List Context → Stmt → Reader
  | .thenBranch condition :: rest, s =>
      { r with expect := .statement, contexts := .elseBranch condition s :: rest }
  | .elseBranch condition thenBranch :: rest, s =>
      r.placeBeforeElse rest (.ifElse condition thenBranch (some s))
  | .whileBody condition :: rest, s => r.placeBeforeElse rest (.while condition s)
  | .forBody initializer condition increment :: rest, s =>
      r.placeBeforeElse rest (.forLoop initializer condition increment s)
  | contexts, _ => { r with contexts }

/-- Put a finished statement where it belongs when no `else` follows: it ends
every statement around it up to the innermost block, and goes there. -/
def place (r : Reader) : List Context → Stmt → Reader
  | .thenBranch condition :: rest, s => r.place rest (.ifElse condition s none)
  | .elseBranch condition thenBranch :: rest, s =>
      r.place rest (.ifElse condition thenBranch (some s))
  | .whileBody condition :: rest, s => r.place rest (.while condition s)
  | .forBody initializer condition increment :: rest, s =>
      r.place rest (.forLoop initializer condition increment s)
  | .block earlier :: rest, s =>
      { r with expect := .declaration, contexts := .block (earlier.push s) :: rest }
  | .body owner name params earlier :: rest, s =>
      { r with
        expect := .declaration
        contexts := .body owner name params (earlier.push s) :: rest }
  | [], s => { r with expect := .declaration, contexts := [], program := r.program.push s }

/-- Finish a function. -/
def finishFunction (r : Reader) (owner : Owner) (decl : FunctionDecl Stmt) : Reader :=
  match owner with
  | .function => r.expecting (.finished (.function decl))
  | .method head earlier => r.expecting (.member head (earlier.push decl))

/-- Finish a variable. -/
def finishVariable (r : Reader) (place : VariablePlace) (name : Token)
    (initializer : Option Expr) : Reader :=
  match place with
  | .declaration => r.expecting (.finished (.var name initializer))
  | .forClause => r.expecting (.forCondition (some (.var name initializer)))

/-! ## §4. Expressions inside statements. -/

/-- An expression is whole, and `t` follows it. -/
def endClause (r : Reader) (clause : Clause) (e : Expr) (t : Token) : Reader :=
  match clause, t.kind with
  | .statement, .semicolon => r.expecting (.finished (.expression e))
  | .statement, _ => r.fail t .expressionEnd
  | .print, .semicolon => r.expecting (.finished (.print e))
  | .print, _ => r.fail t .printEnd
  | .variable place name, .semicolon => r.finishVariable place name (some e)
  | .variable .., _ => r.fail t .variableEnd
  | .return keyword, .semicolon => r.expecting (.finished (.return keyword (some e)))
  | .return _, _ => r.fail t .returnEnd
  | .ifCondition, .rightParen => r.opening (.thenBranch e) .statement
  | .ifCondition, _ => r.fail t .ifClose
  | .whileCondition, .rightParen => r.opening (.whileBody e) .statement
  | .whileCondition, _ => r.fail t .whileClose
  | .forInitializer, .semicolon => r.expecting (.forCondition (some (.expression e)))
  | .forInitializer, _ => r.fail t .expressionEnd
  | .forCondition initializer, .semicolon =>
      r.expecting (.forIncrement initializer (some e))
  | .forCondition _, _ => r.fail t .conditionEnd
  | .forIncrement initializer condition, .rightParen =>
      r.opening (.forBody initializer condition (some e)) .statement
  | .forIncrement .., _ => r.fail t .forClose

/-- Offer a token to an expression inside a statement. -/
def offerExpression (r : Reader) (clause : Clause) (p : Partial) (t : Token) : Reader :=
  match p.offer t r.ledger with
  | (.taken p, ledger) => { r with expect := .expression clause p, ledger }
  | (.whole e, ledger) => { r with ledger }.endClause clause e t
  | (.refused fault, ledger) => { r with ledger }.fail t fault

/-! ## §5. Offering a token. -/

/-- Offer a token where a statement must start. -/
def offerStatement (r : Reader) (t : Token) : Reader :=
  match t.kind with
  | .kwFor => r.expecting .forOpen
  | .kwIf => r.expecting .ifOpen
  | .kwWhile => r.expecting .whileOpen
  | .kwReturn => r.expecting (.returnValue t)
  | .leftBrace => r.opening (.block #[]) .declaration
  | .kwPrint => r.expecting (.expression .print .empty)
  | _ => r.offerExpression .statement .empty t

/-- Offer a token where a declaration or the end of a block must stand. -/
def offerDeclaration (r : Reader) (t : Token) : Reader :=
  match t.kind, r.contexts with
  | .rightBrace, .block earlier :: rest =>
      { r with expect := .finished (.block earlier.toList), contexts := rest }
  | .rightBrace, .body owner name params earlier :: rest =>
      { r with contexts := rest }.finishFunction owner ⟨name, params.toList, earlier.toList⟩
  | .kwClass, _ => r.expecting .className
  | .kwFun, _ => r.expecting (.functionName .function)
  | .kwVar, _ => r.expecting (.variableName .declaration)
  | _, _ => r.offerStatement t

/-- Offer a token where the name of a function must stand. -/
def offerFunctionName (r : Reader) (owner : Owner) (t : Token) : Reader :=
  match t.kind with
  | .identifier => r.expecting (.parametersOpen owner t)
  | _ => r.fail t (.functionName owner.kind)

/-- Offer a token where a parameter must stand. -/
def offerParameter (r : Reader) (owner : Owner) (name : Token) (params : Array Token)
    (t : Token) : Reader :=
  let r := if maxArity ≤ params.size then r.report t .tooManyParameters else r
  match t.kind with
  | .identifier => r.expecting (.afterParameter owner name (params.push t))
  | _ => r.fail t .parameterName

/-- **Offer the next token** to a reader. -/
def offer (r : Reader) (t : Token) : Reader :=
  match r.expect with
  | .declaration => r.offerDeclaration t
  | .statement => r.offerStatement t
  | .finished s =>
      if t.kind = .kwElse ∧ awaitsElse r.contexts then r.placeBeforeElse r.contexts s
      else (r.place r.contexts s).offerDeclaration t
  | .expression clause p => r.offerExpression clause p t
  | .className =>
      match t.kind with
      | .identifier => r.expecting (.superclass t)
      | _ => r.fail t .className
  | .superclass name =>
      match t.kind with
      | .less => r.expecting (.superclassName name)
      | .leftBrace => r.expecting (.member ⟨name, none⟩ #[])
      | _ => r.fail t .classBodyOpen
  | .superclassName name =>
      match t.kind with
      | .identifier =>
          let (occurrence, ledger) := r.ledger.number t
          { r with expect := .classBodyOpen ⟨name, some occurrence⟩, ledger }
      | _ => r.fail t .superclassName
  | .classBodyOpen head =>
      match t.kind with
      | .leftBrace => r.expecting (.member head #[])
      | _ => r.fail t .classBodyOpen
  | .member head methods =>
      match t.kind with
      | .rightBrace =>
          r.expecting (.finished (.class head.name head.superclass methods.toList))
      | .eof => r.fail t .classBodyClose
      | _ => r.offerFunctionName (.method head methods) t
  | .functionName owner => r.offerFunctionName owner t
  | .parametersOpen owner name =>
      match t.kind with
      | .leftParen => r.expecting (.firstParameter owner name)
      | _ => r.fail t (.parametersOpen owner.kind)
  | .firstParameter owner name =>
      match t.kind with
      | .rightParen => r.expecting (.functionBodyOpen owner name #[])
      | _ => r.offerParameter owner name #[] t
  | .nextParameter owner name params => r.offerParameter owner name params t
  | .afterParameter owner name params =>
      match t.kind with
      | .comma => r.expecting (.nextParameter owner name params)
      | .rightParen => r.expecting (.functionBodyOpen owner name params)
      | _ => r.fail t .parametersClose
  | .functionBodyOpen owner name params =>
      match t.kind with
      | .leftBrace => r.opening (.body owner name params #[]) .declaration
      | _ => r.fail t (.functionBodyOpen owner.kind)
  | .variableName place =>
      match t.kind with
      | .identifier => r.expecting (.variableValue place t)
      | _ => r.fail t .variableName
  | .variableValue place name =>
      match t.kind with
      | .equal => r.expecting (.expression (.variable place name) .empty)
      | .semicolon => r.finishVariable place name none
      | _ => r.fail t .variableEnd
  | .ifOpen =>
      match t.kind with
      | .leftParen => r.expecting (.expression .ifCondition .empty)
      | _ => r.fail t .ifOpen
  | .whileOpen =>
      match t.kind with
      | .leftParen => r.expecting (.expression .whileCondition .empty)
      | _ => r.fail t .whileOpen
  | .forOpen =>
      match t.kind with
      | .leftParen => r.expecting .forInitializer
      | _ => r.fail t .forOpen
  | .forInitializer =>
      match t.kind with
      | .semicolon => r.expecting (.forCondition none)
      | .kwVar => r.expecting (.variableName .forClause)
      | _ => r.offerExpression .forInitializer .empty t
  | .forCondition initializer =>
      match t.kind with
      | .semicolon => r.expecting (.forIncrement initializer none)
      | _ => r.offerExpression (.forCondition initializer) .empty t
  | .forIncrement initializer condition =>
      match t.kind with
      | .rightParen => r.opening (.forBody initializer condition none) .statement
      | _ => r.offerExpression (.forIncrement initializer condition) .empty t
  | .returnValue keyword =>
      match t.kind with
      | .semicolon => r.expecting (.finished (.return keyword none))
      | _ => r.offerExpression (.return keyword) .empty t
  | .recovery afterSemicolon =>
      if afterSemicolon || startsDeclaration t.kind then r.offerDeclaration t
      else r.expecting (.recovery (t.kind = .semicolon))

/-! ## §6. The end of the input. -/

/-- What was expected when the input ends: a finished statement is placed,
and whatever else is not complete is a failure. -/
def offerEof (r : Reader) (eof : Token) : Reader :=
  match r.expect with
  | .declaration | .recovery _ => r
  | .finished s => r.place r.contexts s
  | _ => r.offer eof

/-- End the input: every block that is still open is a failure, and is
dropped. -/
def finish (r : Reader) (eof : Token) : Reader :=
  let r := r.offerEof eof
  let unclosed := r.contexts.filter Context.isBlock
  { r with
    contexts := []
    ledger := unclosed.foldl (fun l _ => l.report eof .blockClose) r.ledger }

/-- Offer all tokens up to the end of the input. -/
def readAll (r : Reader) : List Token → Reader
  | [] => r
  | t :: rest => if t.kind = .eof then r.finish t else (r.offer t).readAll rest

end Reader

/-! ## §7. Programs. -/

/-- What reading a program yields: the statements that could be read, the
failures in the order they were noted, and the next free number. -/
structure Program where
  statements : List Stmt
  failures : List Diagnostic
  nextId : Nat

/-- Read the tokens of a program; its occurrences are numbered from `firstId`
on. -/
def program (firstId : Nat) (tokens : List Token) : Program :=
  let r := (Reader.start firstId).readAll tokens
  ⟨r.program.toList, r.ledger.failures.toList, r.ledger.nextId⟩

end Lox.Parse
