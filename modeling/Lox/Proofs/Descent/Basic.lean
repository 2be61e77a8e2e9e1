/-
  Lox.Proofs.Descent.Basic
  ────────────────────────
  **READING BY RECURSIVE DESCENT.**

  The grammar read top down, one function for each of its rules, over a list of
  tokens and a cursor into it.  This is how a parser of the language is written by
  hand: it looks at the token under the cursor, it moves the cursor on, and it calls
  itself.  Nothing here promises that any of this goes well.  A look outside of
  the list is an outcome of its own (`outOfBounds`), and so is a recursion that goes
  deeper than some number of calls (`outOfFuel`).

  A failure leaves the rule it happens in and all the rules around it, up to the
  innermost declaration: that one reports it, skips tokens up to a place where
  a declaration is likely to start, and yields nothing.

  The modules after this one show that reading token by token (`Parse.program`,
  `Parse.loneExpression`) is this descent, and that it never goes wrong.
-/
import Lox.Proofs.Grammar.Basic

namespace Lox.Descent

open Parse (Ledger maxArity assigned?)
open Grammar (Level)

/-! ## §1. Parsers. -/

/-- Where a parser is: the place of its cursor, and what it keeps beside the tree. -/
structure State where
  current : Nat
  ledger : Ledger

/-- What becomes of a parser. -/
inductive Outcome (α : Type) where
  | done (a : α) (s : State)
  /-- A token cannot stand where it does. -/
  | failed (offender : Token) (fault : SyntaxFault) (s : State)
  /-- A token was asked for where there is none. -/
  | outOfBounds
  /-- More calls were open than allowed. -/
  | outOfFuel

/-- Go on after an outcome, if it is no failure. -/
def Outcome.bind {α β : Type} (o : Outcome α) (f : α → State → Outcome β) : Outcome β :=
  match o with
  | .done a s => f a s
  | .failed t fault s => .failed t fault s
  | .outOfBounds => .outOfBounds
  | .outOfFuel => .outOfFuel

/-- A parser over a list of tokens. -/
def Parser (α : Type) : Type :=
  List Token → State → Outcome α

instance : Monad Parser where
  pure a := fun _ s => .done a s
  bind p f := fun ts s => (p ts s).bind fun a s => f a ts s

namespace Parser

variable {α : Type}

/-- Fail at a token. -/
def fail (offender : Token) (fault : SyntaxFault) : Parser α :=
  fun _ s => .failed offender fault s

/-- Go on in another way after a failure. -/
def rescue (p : Parser α) (handler : Token → SyntaxFault → Parser α) : Parser α :=
  fun ts s =>
    match p ts s with
    | .failed t fault s => handler t fault ts s
    | o => o

/-- Note a failure at a token, and go on. -/
def report (offender : Token) (fault : SyntaxFault) : Parser Unit :=
  fun _ s => .done () { s with ledger := s.ledger.report offender fault }

/-- Number an occurrence of a name. -/
def number (name : Token) : Parser Occurrence :=
  fun _ s => .done (s.ledger.number name).1 { s with ledger := (s.ledger.number name).2 }

/-! ## §2. The cursor. -/

/-- The token at a place of the list. -/
def tokenAt (i : Nat) : Parser Token :=
  fun ts s =>
    match ts[i]? with
    | some t => .done t s
    | none => .outOfBounds

/-- The token under the cursor. -/
def peek : Parser Token :=
  fun ts s => tokenAt s.current ts s

/-- The token before the cursor, or the first one. -/
def previous : Parser Token :=
  fun ts s => tokenAt (s.current - 1) ts s

/-- Move the cursor on by one token. -/
def moveOn : Parser Unit :=
  fun _ s => .done () { s with current := s.current + 1 }

/-- Whether the cursor is at an end of input. -/
def isAtEnd : Parser Bool := do
  return (← peek).kind = .eof

/-- Take the token under the cursor.  The end of the input is not passed. -/
def advance : Parser Token := do
  if ← isAtEnd then
    previous
  else
    moveOn
    previous

/-- Whether a token of this kind is under the cursor. -/
def check (kind : TokenKind) : Parser Bool := do
  if ← isAtEnd then
    return false
  else
    return (← peek).kind = kind

/-- Take the token under the cursor if it is of this kind. -/
def accept (kind : TokenKind) : Parser Bool := do
  if ← check kind then
    let _ ← advance
    return true
  else
    return false

/-- Take the token under the cursor if it is of one of these kinds. -/
def acceptAny : List TokenKind → Parser Bool
  | [] => return false
  | kind :: kinds => do
      if ← accept kind then
        return true
      else
        acceptAny kinds

/-- Take a token that must be of this kind. -/
def consume (kind : TokenKind) (fault : SyntaxFault) : Parser Token := do
  if ← check kind then
    advance
  else
    fail (← peek) fault

/-- What may be left out before a token of this kind. -/
def optionalBefore (kind : TokenKind) (p : Parser α) : Parser (Option α) := do
  if ← check kind then
    return none
  else
    return some (← p)

/-- What may follow a token of this kind. -/
def optionalAfter (kind : TokenKind) (p : Parser α) : Parser (Option α) := do
  if ← accept kind then
    return some (← p)
  else
    return none

/-- A list that may be empty before a token of this kind. -/
def listBefore (kind : TokenKind) (p : Parser (Array α)) : Parser (Array α) := do
  if ← check kind then
    return #[]
  else
    p

/-- Report a list that is about to get too long. -/
def limit (size : Nat) (fault : SyntaxFault) : Parser Unit :=
  if maxArity ≤ size then do
    report (← peek) fault
  else
    return ()

end Parser

/-! ## §3. The rules. -/

/-- **The rules of the grammar, and the loops in them**, each with what it yields.  A
loop knows what it has read in its earlier rounds. -/
inductive Production : Type → Type where
  /-- The declarations up to the end of the input. -/
  | program (earlier : Array Stmt) : Production (Array Stmt)
  /-- An expression that is all of the input. -/
  | wholeExpression : Production Expr
  /-- A declaration; nothing if it failed. -/
  | declaration : Production (Option Stmt)
  /-- The tokens to skip after a failure. -/
  | skip : Production Unit
  /-- A declaration that may fail. -/
  | attempt : Production Stmt
  | classDeclaration : Production Stmt
  /-- The methods of a class, up to the end of its body. -/
  | methods (earlier : Array (FunctionDecl Stmt)) : Production (Array (FunctionDecl Stmt))
  | function (kind : FunctionKind) : Production (FunctionDecl Stmt)
  | parameters (earlier : Array Token) : Production (Array Token)
  | varDeclaration : Production Stmt
  | statement : Production Stmt
  | forStatement : Production Stmt
  | forInitializer : Production (Option Stmt)
  | ifStatement : Production Stmt
  | whileStatement : Production Stmt
  | returnStatement : Production Stmt
  | printStatement : Production Stmt
  | expressionStatement : Production Stmt
  /-- The declarations of a block, and its end. -/
  | block (earlier : Array Stmt) : Production (List Stmt)
  | expression : Production Expr
  | assignment : Production Expr
  | binary (l : Level) : Production Expr
  /-- The operators of a level that follow an operand. -/
  | operators (l : Level) (left : Expr) : Production Expr
  | unary : Production Expr
  | call : Production Expr
  /-- The calls and properties that follow an operand. -/
  | calls (e : Expr) : Production Expr
  | finishCall (callee : Expr) : Production Expr
  | arguments (earlier : Array Expr) : Production (Array Expr)
  | primary : Production Expr

/-- What the operators of a level stand between. -/
def Production.operand : Level → Production Expr
  | .logicOr => .binary .logicAnd
  | .logicAnd => .binary .equality
  | .equality => .binary .comparison
  | .comparison => .binary .term
  | .term => .binary .factor
  | .factor => .unary

/-- Statements with one more, if there is one. -/
def kept (earlier : Array Stmt) : Option Stmt → Array Stmt
  | some s => earlier.push s
  | none => earlier

open Descent.Parser

/-- **What each rule does**, when the others are there to be called. -/
def step (run : {α : Type} → Production α → Parser α) : {α : Type} → Production α → Parser α
  | _, .program earlier => do
      if ← isAtEnd then
        return earlier
      else
        let s ← run .declaration
        run (.program (kept earlier s))
  | _, .wholeExpression => do
      let e ← run .expression
      if ← isAtEnd then
        return e
      else
        fail (← peek) .endOfExpression
  | _, .declaration =>
      rescue
        (do return some (← run .attempt))
        (fun offender fault => do
          report offender fault
          let _ ← advance
          run .skip
          return none)
  | _, .skip => do
      if ← isAtEnd then
        return ()
      else if (← previous).kind = .semicolon then
        return ()
      else if Parse.Reader.startsDeclaration (← peek).kind then
        return ()
      else
        let _ ← advance
        run .skip
  | _, .attempt => do
      if ← accept .kwClass then
        run .classDeclaration
      else if ← accept .kwFun then
        return .function (← run (.function .function))
      else if ← accept .kwVar then
        run .varDeclaration
      else
        run .statement
  | _, .classDeclaration => do
      let name ← consume .identifier .className
      let superclass ← optionalAfter .less do
        number (← consume .identifier .superclassName)
      let _ ← consume .leftBrace .classBodyOpen
      let methods ← run (.methods #[])
      let _ ← consume .rightBrace .classBodyClose
      return .class name superclass methods.toList
  | _, .methods earlier => do
      if (← check .rightBrace) || (← isAtEnd) then
        return earlier
      else
        let method ← run (.function .method)
        run (.methods (earlier.push method))
  | _, .function kind => do
      let name ← consume .identifier (.functionName kind)
      let _ ← consume .leftParen (.parametersOpen kind)
      let params ← listBefore .rightParen (run (.parameters #[]))
      let _ ← consume .rightParen .parametersClose
      let _ ← consume .leftBrace (.functionBodyOpen kind)
      let body ← run (.block #[])
      return ⟨name, params.toList, body⟩
  | _, .parameters earlier => do
      limit earlier.size .tooManyParameters
      let param ← consume .identifier .parameterName
      if ← accept .comma then
        run (.parameters (earlier.push param))
      else
        return earlier.push param
  | _, .varDeclaration => do
      let name ← consume .identifier .variableName
      let initializer ← optionalAfter .equal (run .expression)
      let _ ← consume .semicolon .variableEnd
      return .var name initializer
  | _, .statement => do
      if ← accept .kwFor then
        run .forStatement
      else if ← accept .kwIf then
        run .ifStatement
      else if ← accept .kwWhile then
        run .whileStatement
      else if ← accept .kwReturn then
        run .returnStatement
      else if ← accept .leftBrace then
        return .block (← run (.block #[]))
      else if ← accept .kwPrint then
        run .printStatement
      else
        run .expressionStatement
  | _, .forStatement => do
      let _ ← consume .leftParen .forOpen
      let initializer ← run .forInitializer
      let condition ← optionalBefore .semicolon (run .expression)
      let _ ← consume .semicolon .conditionEnd
      let increment ← optionalBefore .rightParen (run .expression)
      let _ ← consume .rightParen .forClose
      let body ← run .statement
      return .forLoop initializer condition increment body
  | _, .forInitializer => do
      if ← accept .semicolon then
        return none
      else if ← accept .kwVar then
        return some (← run .varDeclaration)
      else
        return some (← run .expressionStatement)
  | _, .ifStatement => do
      let _ ← consume .leftParen .ifOpen
      let condition ← run .expression
      let _ ← consume .rightParen .ifClose
      let thenBranch ← run .statement
      if ← accept .kwElse then
        return .ifElse condition thenBranch (some (← run .statement))
      else
        return .ifElse condition thenBranch none
  | _, .whileStatement => do
      let _ ← consume .leftParen .whileOpen
      let condition ← run .expression
      let _ ← consume .rightParen .whileClose
      return .while condition (← run .statement)
  | _, .returnStatement => do
      let keyword ← previous
      let value ← optionalBefore .semicolon (run .expression)
      let _ ← consume .semicolon .returnEnd
      return .return keyword value
  | _, .printStatement => do
      let value ← run .expression
      let _ ← consume .semicolon .printEnd
      return .print value
  | _, .expressionStatement => do
      let e ← run .expression
      let _ ← consume .semicolon .expressionEnd
      return .expression e
  | _, .block earlier => do
      if (← check .rightBrace) || (← isAtEnd) then
        let _ ← consume .rightBrace .blockClose
        return earlier.toList
      else
        let s ← run .declaration
        run (.block (kept earlier s))
  | _, .expression => run .assignment
  | _, .assignment => do
      let target ← run (.binary .logicOr)
      if ← accept .equal then
        let equals ← previous
        let value ← run .assignment
        match assigned? target value with
        | some e => return e
        | none => do
            -- the parser is not confused by a value that cannot be assigned
            report equals .assignmentTarget
            return target
      else
        return target
  | _, .binary l => do
      let left ← run (.operand l)
      run (.operators l left)
  | _, .operators l left => do
      if ← acceptAny l.operators then
        let operator ← previous
        let right ← run (.operand l)
        run (.operators l (l.node left operator right))
      else
        return left
  | _, .unary => do
      if ← acceptAny [.bang, .minus] then
        let operator ← previous
        return .unary operator (← run .unary)
      else
        run .call
  | _, .call => do
      let e ← run .primary
      run (.calls e)
  | _, .calls e => do
      if ← accept .leftParen then
        let e ← run (.finishCall e)
        run (.calls e)
      else if ← accept .dot then
        let name ← consume .identifier .propertyName
        run (.calls (.get e name))
      else
        return e
  | _, .finishCall callee => do
      let arguments ← listBefore .rightParen (run (.arguments #[]))
      let paren ← consume .rightParen .argumentsClose
      return .call callee paren arguments.toList
  | _, .arguments earlier => do
      limit earlier.size .tooManyArguments
      let e ← run .expression
      if ← accept .comma then
        run (.arguments (earlier.push e))
      else
        return earlier.push e
  | _, .primary => do
      let t ← peek
      match t.kind with
      | .kwFalse => do
          let _ ← advance
          return .literal (.bool false)
      | .kwTrue => do
          let _ ← advance
          return .literal (.bool true)
      | .kwNil => do
          let _ ← advance
          return .literal .nil
      | .number x => do
          let _ ← advance
          return .literal (.number x)
      | .string s => do
          let _ ← advance
          return .literal (.string s)
      | .kwSuper => do
          let keyword ← advance
          let _ ← consume .dot .superDot
          let method ← consume .identifier .superMethodName
          return .super (← number keyword) method
      | .kwThis => do
          return .this (← number (← advance))
      | .identifier => do
          return .variable (← number (← advance))
      | .leftParen => do
          let _ ← advance
          let e ← run .expression
          let _ ← consume .rightParen .groupClose
          return .grouping e
      | _ => fail t .expression

/-- **Read a rule**, with at most so many calls open. -/
def descend : Nat → {α : Type} → Production α → Parser α
  | 0, _, _ => fun _ _ => .outOfFuel
  | fuel + 1, _, p => step (descend fuel) p

/-- A parser before the first token. -/
def State.start (firstId : Nat) : State :=
  ⟨0, ⟨firstId, #[]⟩⟩

end Lox.Descent
