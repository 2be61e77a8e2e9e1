/-
  Lox.Diagnostic
  ──────────────
  **WHAT CAN GO WRONG, AND ITS WORDING.**

  Every failure is a cause: a constructor that says what is wrong, with the
  names and numbers that its message needs.  A `Diagnostic` puts the cause at
  its place.  This is the one module that knows how any of them reads.
-/
import Lox.Token.Basic

namespace Lox

/-! ## §1. Causes. -/

/-- A piece of text that is no token. -/
inductive LexicalFault where
  /-- A character that starts no token. -/
  | unexpected (c : Char)
  /-- A string without its closing quote. -/
  | unterminated
  deriving Repr, DecidableEq

/-- The two places a function can be declared in. -/
inductive FunctionKind where
  | function
  | method
  deriving Repr, DecidableEq

/-- What a kind of function is called in a message. -/
def FunctionKind.word : FunctionKind → String
  | .function => "function"
  | .method => "method"

/-- A token where the grammar does not allow it. -/
inductive SyntaxFault where
  | className
  | superclassName
  | classBodyOpen
  | classBodyClose
  | functionName (kind : FunctionKind)
  | parametersOpen (kind : FunctionKind)
  | tooManyParameters
  | parameterName
  | parametersClose
  | functionBodyOpen (kind : FunctionKind)
  | variableName
  | variableEnd
  | forOpen
  | conditionEnd
  | forClose
  | ifOpen
  | ifClose
  | whileOpen
  | whileClose
  | returnEnd
  | printEnd
  | expressionEnd
  | blockClose
  | assignmentTarget
  | propertyName
  | tooManyArguments
  | argumentsClose
  | superDot
  | superMethodName
  | groupClose
  | expression
  | endOfExpression
  deriving Repr, DecidableEq

namespace SyntaxFault

/-- A syntax fault in words. -/
def message : SyntaxFault → String
  | className => "Expect class name."
  | superclassName => "Expect superclass name."
  | classBodyOpen => "Expect '\x7b' before class body."
  | classBodyClose => "Expect '\x7d' after class body."
  | functionName kind => "Expect " ++ kind.word ++ " name."
  | parametersOpen kind => "Expect '(' after " ++ kind.word ++ " name."
  | tooManyParameters => "Can't have more than 255 parameters."
  | parameterName => "Expect parameter name."
  | parametersClose => "Expect ')' after parameters."
  | functionBodyOpen kind => "Expect '\x7b' before " ++ kind.word ++ " body."
  | variableName => "Expect variable name."
  | variableEnd => "Expect ';' after variable declaration."
  | forOpen => "Expect '(' after 'for'."
  | conditionEnd => "Expect ';' after loop condition."
  | forClose => "Expect ')' after for clauses."
  | ifOpen => "Expect '(' after 'if'."
  | ifClose => "Expect ')' after if condition."
  | whileOpen => "Expect '(' after 'while'."
  | whileClose => "Expect ')' after condition."
  | returnEnd => "Expect ';' after return value."
  | printEnd => "Expect ';' after value."
  | expressionEnd => "Expect ';' after expression."
  | blockClose => "Expect '\x7d' after block."
  | assignmentTarget => "Invalid assignment target."
  | propertyName => "Expect property name after '.'."
  | tooManyArguments => "Can't have more than 255 arguments."
  | argumentsClose => "Expect ')' after arguments."
  | superDot => "Expect '.' after 'super'."
  | superMethodName => "Expect superclass method name."
  | groupClose => "Expect ')' after expression."
  | expression => "Expect expression."
  | endOfExpression => "Expect end of expression."

end SyntaxFault

/-- A violation of the static rules on names. -/
inductive ScopeFault where
  /-- A name is declared twice in one local scope. -/
  | alreadyDeclared
  /-- A local variable is read in its own initializer. -/
  | localInOwnInitializer
  /-- A global variable is read in its own initializer. -/
  | globalInOwnInitializer
  | returnAtTopLevel
  | valueFromInitializer
  | thisOutsideClass
  | superOutsideClass
  | superWithoutSuperclass
  | inheritsFromItself
  deriving Repr, DecidableEq

namespace ScopeFault

/-- A scope fault in words. -/
def message : ScopeFault → String
  | alreadyDeclared => "Already a variable with this name in this scope."
  | localInOwnInitializer => "Can't read local variable in its own initializer."
  | globalInOwnInitializer => "Can't read variable in its own initializer."
  | returnAtTopLevel => "Can't return from top-level code."
  | valueFromInitializer => "Can't return a value from an initializer."
  | thisOutsideClass => "Can't use 'this' outside of a class."
  | superOutsideClass => "Can't use 'super' outside of a class."
  | superWithoutSuperclass => "Can't use 'super' in a class with no superclass."
  | inheritsFromItself => "A class can't inherit from itself."

end ScopeFault

/-- A failure of the running program. -/
inductive RuntimeFault where
  | undefinedVariable (name : String)
  /-- There are fewer scopes than a recorded distance says. -/
  | chainTooShort (name : String)
  | undefinedProperty (name : String)
  | operandNotNumber
  | operandsNotNumbers
  | operandsNotAddable
  | unaryOperator
  | binaryOperator
  | notCallable
  | wrongArity (expected got : Nat)
  | stackOverflow
  | noProperties
  | noFields
  /-- What a class declaration names as its superclass is no class. -/
  | superclassNotClass
  /-- A use of `super` that has no recorded distance. -/
  | superUnresolved
  /-- What `super` stands for is no class. -/
  | superNotClass
  /-- A use of `super` with no room for the scope of `this` inside it. -/
  | thisUnresolved
  /-- What `this` stands for beside `super` is no object. -/
  | thisNotObject
  deriving Repr, DecidableEq

namespace RuntimeFault

/-- A runtime fault in words. -/
def message : RuntimeFault → String
  | undefinedVariable name => "Undefined variable '" ++ name ++ "'."
  | chainTooShort name => "Scope chain too short while resolving '" ++ name ++ "'."
  | undefinedProperty name => "Undefined property '" ++ name ++ "'."
  | operandNotNumber => "Operand must be a number."
  | operandsNotNumbers => "Operands must be numbers."
  | operandsNotAddable => "Operands must be two numbers or two strings."
  | unaryOperator => "Invalid unary operator."
  | binaryOperator => "Invalid binary operator."
  | notCallable => "Can only call functions and classes."
  | wrongArity expected got => s!"Expected {expected} arguments but got {got}."
  | stackOverflow => "Stack overflow."
  | noProperties => "Only instances have properties."
  | noFields => "Only instances have fields."
  | superclassNotClass | superNotClass => "Superclass must be a class."
  | superUnresolved => "Unresolved 'super'."
  | thisUnresolved => "Unresolved 'this'."
  | thisNotObject => "'this' is not an instance."

end RuntimeFault

/-! ## §2. Causes at their place. -/

/-- A failure and where it is. -/
inductive Diagnostic where
  /-- Text that is no token, on a line. -/
  | lexical (line : Nat) (fault : LexicalFault)
  /-- A token that the grammar does not allow. -/
  | syntactic (offender : Token) (fault : SyntaxFault)
  /-- A token that breaks a static rule on names. -/
  | scoping (offender : Token) (fault : ScopeFault)
  /-- A failure of the running program, on a line. -/
  | runtime (line : Nat) (fault : RuntimeFault)
  /-- The output takes no more. -/
  | outputFull
  deriving Repr, DecidableEq

namespace Diagnostic

/-- The bare message. -/
def message : Diagnostic → String
  | lexical _ (.unexpected c) => "Unexpected character: " ++ String.singleton c
  | lexical _ .unterminated => "Unterminated string."
  | syntactic _ fault => fault.message
  | scoping _ fault => fault.message
  | runtime _ fault => fault.message
  | outputFull => "output limit reached"

/-- The line, where there is one. -/
def line? : Diagnostic → Option Nat
  | lexical line _ => some line
  | syntactic offender _ => some offender.line
  | scoping offender _ => some offender.line
  | runtime line _ => some line
  | outputFull => none

/-- Whether the program was rejected before it ran. -/
def isStatic : Diagnostic → Bool
  | lexical .. | syntactic .. | scoping .. => true
  | runtime .. | outputFull => false

/-- Where a static failure is, beside its line. -/
def location (offender : Token) : String :=
  if offender.kind = .eof then " at end" else " at '" ++ offender.lexeme ++ "'"

/-- The full text: static failures start with their line, a runtime failure
ends with it. -/
def text (d : Diagnostic) : String :=
  match d with
  | lexical line _ => "[line " ++ Nat.repr line ++ "] Error: " ++ d.message
  | syntactic offender _ | scoping offender _ =>
      "[line " ++ Nat.repr offender.line ++ "] Error" ++ location offender ++ ": " ++ d.message
  | runtime line _ => d.message ++ "\n[line " ++ Nat.repr line ++ "]"
  | outputFull => d.message

end Diagnostic

end Lox
