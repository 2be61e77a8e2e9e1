/-
  Lox.Resolve
  ───────────
  **WHICH SCOPE A NAME MEANS.**

  One walk over a program keeps a stack of local scopes and notes, for each
  occurrence of a name that one of them declares, how many scopes lie
  between.  An occurrence without such a distance means a global variable.
  On the way the static rules on names are checked; a violation is noted and
  the walk goes on.
-/
import Lox.Bindings
import Lox.Diagnostic
import Lox.Syntax.Basic

namespace Lox.Resolve

/-! ## §1. Where the walk is. -/

/-- What kind of function body the walk is in, if any. -/
inductive FunctionRole where
  | none
  | function
  | method
  | initializer
  deriving Repr, DecidableEq

/-- What kind of class body the walk is in, if any. -/
inductive ClassRole where
  | none
  /-- A class without a superclass. -/
  | plain
  /-- A class with a superclass. -/
  | derived
  deriving Repr, DecidableEq

/-- The function and the class around a place. -/
structure Surroundings where
  functionRole : FunctionRole
  classRole : ClassRole
  deriving Repr, DecidableEq

/-- The top level of a program. -/
def Surroundings.topLevel : Surroundings := ⟨.none, .none⟩

/-- Local scopes, the innermost first.  A name in a scope is declared; it is
defined once its value is `true`. -/
abbrev Scopes := List (Bindings Bool)

/-- The number of scopes between a place and the innermost one that declares
a name. -/
def Scopes.distance? : Scopes → String → Option Nat
  | [], _ => none
  | scope :: rest, name =>
      if scope.binds name then some 0 else (distance? rest name).map (· + 1)

/-- The state of the walk. -/
structure Walk where
  scopes : Scopes
  globals : Bindings Bool
  /-- Occurrence numbers with their distances, as they were found. -/
  distances : Array (Nat × Nat)
  failures : Array Diagnostic

namespace Walk

/-! ## §2. Scopes. -/

/-- Note a violation at a token. -/
def report (w : Walk) (offender : Token) (fault : ScopeFault) : Walk :=
  { w with failures := w.failures.push (.scoping offender fault) }

/-- Note a violation at a token if there is one. -/
def reportIf (w : Walk) (violated : Bool) (offender : Token) (fault : ScopeFault) : Walk :=
  if violated then w.report offender fault else w

/-- Enter a scope that defines these names. -/
def enter (w : Walk) (names : List String) : Walk :=
  { w with scopes := names.map (·, true) :: w.scopes }

/-- Leave the innermost scope. -/
def leave (w : Walk) : Walk :=
  { w with scopes := w.scopes.tail }

/-- Declare a name.  Globals may be declared again; a local name may not. -/
def declare (w : Walk) (name : Token) : Walk :=
  match w.scopes with
  | [] =>
      if w.globals.binds name.lexeme then w
      else { w with globals := w.globals.insert name.lexeme false }
  | scope :: rest =>
      if scope.binds name.lexeme then w.report name .alreadyDeclared
      else { w with scopes := scope.insert name.lexeme false :: rest }

/-- Define a name. -/
def define (w : Walk) (name : Token) : Walk :=
  match w.scopes with
  | [] => { w with globals := w.globals.insert name.lexeme true }
  | scope :: rest => { w with scopes := scope.insert name.lexeme true :: rest }

/-- Declare and define names that have a value from the start. -/
def introduce (w : Walk) (names : List Token) : Walk :=
  names.foldl (fun w name => (w.declare name).define name) w

/-- Note the distance of an occurrence, if its name is local. -/
def locate (w : Walk) (o : Occurrence) : Walk :=
  match w.scopes.distance? o.name.lexeme with
  | some distance => { w with distances := w.distances.push (o.id, distance) }
  | none => w

/-- A name that is declared and not yet defined is read in its own
initializer. -/
def checkInitialized (w : Walk) (name : Token) : Walk :=
  match w.scopes with
  | [] => w.reportIf (w.globals.get? name.lexeme == some false) name .globalInOwnInitializer
  | scope :: _ => w.reportIf (scope.get? name.lexeme == some false) name .localInOwnInitializer

/-- Use a variable. -/
def use (w : Walk) (o : Occurrence) : Walk :=
  (w.checkInitialized o.name).locate o

/-! ## §3. Expressions. -/

mutual

/-- Walk over an expression. -/
def expr (role : ClassRole) (w : Walk) : Expr → Walk
  | .literal _ => w
  | .grouping inner => w.expr role inner
  | .unary _ right => w.expr role right
  | .binary left _ right => (w.expr role left).expr role right
  | .logical left _ right => (w.expr role left).expr role right
  | .variable occurrence => w.use occurrence
  | .assign target value => (w.expr role value).locate target
  | .call callee _ arguments => (w.expr role callee).exprs role arguments
  | .get object _ => w.expr role object
  | .set object _ value => (w.expr role value).expr role object
  | .this occurrence =>
      match role with
      | .none => w.report occurrence.name .thisOutsideClass
      | _ => w.locate occurrence
  | .super occurrence _ =>
      match role with
      | .none => w.report occurrence.name .superOutsideClass
      | .plain => w.report occurrence.name .superWithoutSuperclass
      | .derived => w.locate occurrence

/-- Walk over expressions in order. -/
def exprs (role : ClassRole) (w : Walk) : List Expr → Walk
  | [] => w
  | e :: rest => (w.expr role e).exprs role rest

end

/-- Walk over an expression that may be missing. -/
def expr? (role : ClassRole) (w : Walk) : Option Expr → Walk
  | none => w
  | some e => w.expr role e

/-! ## §4. Statements. -/

/-- Enter the body of a class: the scope of `super` if it has a superclass,
and the scope of `this` inside it. -/
def enterClass (w : Walk) (name : Token) : Option Occurrence → Walk
  | none => w.enter ["this"]
  | some parent =>
      let w := w.reportIf (parent.name.lexeme == name.lexeme) parent.name .inheritsFromItself
      ((w.use parent).enter ["super"]).enter ["this"]

/-- Leave the body of a class. -/
def leaveClass (w : Walk) : Option Occurrence → Walk
  | none => w.leave
  | some _ => w.leave.leave

/-- Check where a `return` stands. -/
def checkReturn (w : Walk) (role : FunctionRole) (keyword : Token) (hasValue : Bool) : Walk :=
  (w.reportIf (role == .none) keyword .returnAtTopLevel).reportIf
    (hasValue && role == .initializer) keyword .valueFromInitializer

mutual

/-- Walk over a statement. -/
def stmt (around : Surroundings) (w : Walk) : Stmt → Walk
  | .expression e => w.expr around.classRole e
  | .print e => w.expr around.classRole e
  | .var name initializer => ((w.declare name).expr? around.classRole initializer).define name
  | .block body => ((w.enter []).stmts around body).leave
  | .ifElse condition thenBranch none => (w.expr around.classRole condition).stmt around thenBranch
  | .ifElse condition thenBranch (some elseBranch) =>
      ((w.expr around.classRole condition).stmt around thenBranch).stmt around elseBranch
  | .while condition body => (w.expr around.classRole condition).stmt around body
  | .function decl =>
      (w.introduce [decl.name]).function { around with functionRole := .function } decl
  | .return keyword value =>
      (w.checkReturn around.functionRole keyword value.isSome).expr? around.classRole value
  | .class name superclass methods =>
      let role := if superclass.isSome then .derived else .plain
      let w := (w.introduce [name]).enterClass name superclass
      (w.methods { around with classRole := role } methods).leaveClass superclass

/-- Walk over statements in order. -/
def stmts (around : Surroundings) (w : Walk) : List Stmt → Walk
  | [] => w
  | s :: rest => (w.stmt around s).stmts around rest

/-- Walk over a function: its parameters and its body are one scope. -/
def function (around : Surroundings) (w : Walk) : FunctionDecl Stmt → Walk
  | ⟨_, params, body⟩ => (((w.enter []).introduce params).stmts around body).leave

/-- Walk over the methods of a class. -/
def methods (around : Surroundings) (w : Walk) : List (FunctionDecl Stmt) → Walk
  | [] => w
  | m :: rest =>
      let role := if m.isInitializer then .initializer else .method
      (w.function { around with functionRole := role } m).methods around rest

end

end Walk

/-! ## §5. Programs. -/

/-- What the analysis of a program yields: distances by occurrence number, and
the violations in the order they were found. -/
structure Resolution where
  distances : List (Nat × Nat)
  failures : List Diagnostic

/-- The distances in the order of the occurrence numbers. -/
def Resolution.sorted (r : Resolution) : List (Nat × Nat) :=
  r.distances.mergeSort (fun x y => decide (x.1 ≤ y.1))

/-- Analyse a program that starts with some globals defined. -/
def program (globals : List String) (statements : List Stmt) : Resolution :=
  let w : Walk := ⟨[], globals.map (·, true), #[], #[]⟩
  let w := w.stmts .topLevel statements
  ⟨w.distances.toList, w.failures.toList⟩

end Lox.Resolve
