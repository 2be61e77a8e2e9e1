/-
  Lox.Proofs.Lexical.Step
  ───────────────────────
  **PROGRAMS WITHOUT DISTANCES.**

  What a program means by lexical scoping alone.  An environment is a chain
  of scopes that are never extended: a local declaration makes a new
  environment, with one scope more that holds the declared name, and leaves
  the old environment to whoever has captured it.  Functions and methods
  capture the environment in which their own name, or the name of their
  class, is declared.  A name means the nearest declaration on the chain, and
  what no local scope declares is a global variable.

  No step looks at a distance; all steps that do not look up, assign or
  declare a name are those of `Config.step`.
-/
import Lox.Machine.Run

namespace Lox.Lexical

/-! ## §1. Names. -/

/-- Declare a name with a value: at the top level it is a global variable,
anywhere else the environment is extended. -/
def declare (s : State) (name : String) (v : Value) : State :=
  if s.scope = globalScope then s.define globalScope name v
  else (s.child s.scope [(name, v)]).inScope s.scopes.nextId

/-- The environment in which the next name is declared. -/
def extended (s : State) : ScopeId :=
  if s.scope = globalScope then globalScope else s.scopes.nextId

/-- The value of the nearest variable with a name. -/
def lookUp (s : State) (name : Token) : Except RuntimeFault Value :=
  s.scopes.get s.scope name.lexeme

/-- Assign to the nearest variable with a name. -/
def assigning (c : Config) (name : Token) (v : Value) : Config :=
  match c.state.scopes.target c.state.scope name.lexeme with
  | .ok scope => (c.mapState (·.define scope name.lexeme v)).yielding v
  | .error fault => c.failing name.line fault

/-- A method of the nearest `super`, bound to the nearest `this`. -/
def superMethod (c : Config) (keyword name : Token) : Config :=
  match lookUp c.state keyword with
  | .error fault => c.failing keyword.line fault
  | .ok (.class parent) =>
      match c.state.scopes.get c.state.scope "this" with
      | .error fault => c.failing keyword.line fault
      | .ok (.object id) =>
          match parent.method? name.lexeme with
          | some f => c.yieldingMethod f id
          | none => c.failing name.line (.undefinedProperty name.lexeme)
      | .ok _ => c.failing keyword.line .thisNotObject
  | .ok _ => c.failing keyword.line .superNotClass

/-! ## §2. Steps. -/

/-- Declare a function, which captures the environment that its name is in. -/
def declaringFunction (c : Config) (decl : FunctionDecl Stmt) : Config :=
  let f : Function := ⟨c.state.nextIdentity, decl, extended c.state, false⟩
  (c.mapState fun s => declare (s.useIdentities 1) decl.name.lexeme (.function f)).withControl
    .completed

/-- Declare the name of a class, then evaluate its superclass if there is one. -/
def startingClass (c : Config) (name : Token) (superclass : Option Occurrence)
    (methods : List (FunctionDecl Stmt)) : Config :=
  let c := c.mapState (declare · name.lexeme .nil)
  match superclass with
  | none => c.declaringClass name none methods
  | some parent => c.within (.superclass name parent methods) (.eval (.variable parent))

/-- **One step of a program without distances.** -/
def step (g : Setting) (c : Config) : Config :=
  match c.control, c.frames with
  | .eval (.variable o), _ => c.settling o.name.line (lookUp c.state o.name)
  | .eval (.this o), _ => c.settling o.name.line (lookUp c.state o.name)
  | .eval (.super o method), _ => superMethod c o.name method
  | .exec (.var name none), _ =>
      (c.mapState (declare · name.lexeme .nil)).withControl .completed
  | .exec (.function decl), _ => declaringFunction c decl
  | .exec (.class name superclass methods), _ => startingClass c name superclass methods
  | .value v, .assign o :: rest => assigning ⟨.value v, rest, c.state⟩ o.name v
  | .value v, .define name :: rest => ⟨.completed, rest, declare c.state name.lexeme v⟩
  | _, _ => c.step g

/-- Take at most `fuel` steps. -/
def run (g : Setting) : Nat → Config → Config
  | 0, c => c
  | fuel + 1, c => if c.halted then c else run g fuel (step g c)

/-- What a run without distances can read. -/
def setting (clock : Clock) : Setting where
  distances := ∅
  clock := clock

/-- Execute statements by lexical scoping. -/
def interpret (fuel : Nat) (clock : Clock) (s : State) (statements : List Stmt) : State × Ending :=
  let c := run (setting clock) fuel ⟨.execAll statements, [], s⟩
  (c.state, c.ending)

end Lox.Lexical
