/-
  Lox.Machine.Basic
  ─────────────────
  **WHAT A RUNNING PROGRAM IS.**

  A configuration is what is being done now, the frames that wait for its
  outcome (the innermost first), and the state: scopes, objects, output, the
  current scope, the number of calls in progress, and how often the clock has
  been read.  A frame that must restore something carries what it restores, so
  that every way out of a block or a call, also a failing one, passes the frame
  that undoes its beginning.
-/
import Lox.Sink
import Lox.Value.Basic
import Std.Data.HashMap

namespace Lox

/-! ## §1. The state. -/

/-- The scope of the global variables. -/
def globalScope : ScopeId := 0

/-- The most calls that may be in progress at once. -/
def maxCallDepth : Nat := 16384

/-- Distances by occurrence number. -/
abbrev Distances := Std.HashMap Nat Nat

/-- A clock, by what it shows each time it is read. -/
structure Clock where
  reading : Nat → Float

/-- A clock that stands still. -/
def Clock.still (time : Float) : Clock :=
  ⟨fun _ => time⟩

instance : Coe Float Clock :=
  ⟨Clock.still⟩

/-- What a run can read and does not change. -/
structure Setting where
  distances : Distances
  clock : Clock
  /-- The most calls that may be in progress at once, if there is a limit. -/
  callLimit : Option Nat := some maxCallDepth

/-- Whether no further call may begin at a depth. -/
def Setting.exhausted (g : Setting) (depth : Nat) : Bool :=
  match g.callLimit with
  | some limit => limit ≤ depth
  | none => false

/-- What a run changes. -/
structure State where
  /-- The current scope. -/
  scope : ScopeId
  /-- The number of calls in progress. -/
  depth : Nat
  scopes : Forest Value
  objects : Array Object
  /-- The identity of the next function or class. -/
  nextIdentity : Identity
  sink : Sink
  /-- How often the clock has been read. -/
  readings : Nat

namespace State

/-- The state of a program before it runs: the native functions are the only
variables. -/
def initial (capacity : Option Nat) : State where
  scope := globalScope
  depth := 0
  scopes := Forest.root.define globalScope Native.clock.name (.native .clock)
  objects := #[]
  nextIdentity := 0
  sink := .empty capacity
  readings := 0

/-- The global variables. -/
def globals (s : State) : Bindings Value :=
  s.scopes.bindings globalScope

/-- The text of a value in a state. -/
def textOf (s : State) (v : Value) : String :=
  v.text s.objects

/-- Go to another scope. -/
def inScope (s : State) (scope : ScopeId) : State :=
  { s with scope }

/-- Change the scopes. -/
@[inline]
def mapScopes (s : State) (change : Forest Value → Forest Value) : State :=
  let ⟨scope, depth, scopes, objects, nextIdentity, sink, readings⟩ := s
  ⟨scope, depth, change scopes, objects, nextIdentity, sink, readings⟩

/-- Change the objects. -/
@[inline]
def mapObjects (s : State) (change : Array Object → Array Object) : State :=
  let ⟨scope, depth, scopes, objects, nextIdentity, sink, readings⟩ := s
  ⟨scope, depth, scopes, change objects, nextIdentity, sink, readings⟩

/-- Define a variable in a scope. -/
def define (s : State) (scope : ScopeId) (name : String) (v : Value) : State :=
  s.mapScopes (·.define scope name v)

/-- Add a scope with some variables inside `parent`. -/
def child (s : State) (parent : ScopeId) (bindings : Bindings Value) : State :=
  s.mapScopes (·.child parent bindings)

/-- Add an object without fields. -/
def addObject (s : State) (cls : Class) : State :=
  s.mapObjects (·.push ⟨cls, []⟩)

/-- Set a field of an object. -/
def setField (s : State) (id : ObjectId) (name : String) (v : Value) : State :=
  s.mapObjects (·.modify id fun o => { o with fields := o.fields.insert name v })

/-- Use up some identities. -/
def useIdentities (s : State) (count : Nat) : State :=
  { s with nextIdentity := s.nextIdentity + count }

/-- Write octets to the output, as far as they fit. -/
def write (s : State) (bytes : ByteArray) : State :=
  let ⟨scope, depth, scopes, objects, nextIdentity, sink, readings⟩ := s
  ⟨scope, depth, scopes, objects, nextIdentity, sink.write bytes, readings⟩

/-- Use up a reading of the clock. -/
def readClock (s : State) : State :=
  { s with readings := s.readings + 1 }

/-- Begin a call whose body runs in a scope. -/
def beginCall (s : State) (scope : ScopeId) : State :=
  { s with scope, depth := s.depth + 1 }

/-- End a call and go back to the scope of the caller. -/
def endCall (s : State) (scope : ScopeId) : State :=
  { s with scope, depth := s.depth - 1 }

end State

/-! ## §2. Configurations. -/

/-- What is being done now. -/
inductive Control where
  /-- Evaluate an expression. -/
  | eval (e : Expr)
  /-- Execute a statement. -/
  | exec (s : Stmt)
  /-- Execute statements in order. -/
  | execAll (body : List Stmt)
  /-- An expression has a value. -/
  | value (v : Value)
  /-- A statement is complete. -/
  | completed
  /-- A `return` leaves the call around it. -/
  | returning (v : Value)
  /-- A failure ends the run. -/
  | raising (d : Diagnostic)

/-- What waits for an outcome. -/
inductive Frame where
  /-- Apply a unary operator to the value. -/
  | unary (operator : Token)
  /-- The value is the left operand; evaluate the right one. -/
  | binaryLeft (operator : Token) (right : Expr)
  /-- The value is the right operand. -/
  | binaryRight (left : Value) (operator : Token)
  /-- The value is the left operand of a logical operator. -/
  | logical (operator : Token) (right : Expr)
  /-- Assign the value to a variable. -/
  | assign (target : Occurrence)
  /-- The value is to be called. -/
  | callee (paren : Token) (arguments : List Expr)
  /-- The value is the next argument of a call. -/
  | argument (callee : Value) (paren : Token) (earlier : Array Value) (rest : List Expr)
  /-- Read a property of the value. -/
  | get (name : Token)
  /-- The value is the object whose field is set. -/
  | setObject (name : Token) (value : Expr)
  /-- Set a field of an object to the value. -/
  | setValue (object : ObjectId) (name : Token)
  /-- The value of an expression statement is not used. -/
  | discard
  /-- Print the value. -/
  | print
  /-- Define a variable with the value. -/
  | define (name : Token)
  /-- Choose a branch by the value. -/
  | branch (thenBranch : Stmt) (elseBranch : Option Stmt)
  /-- Go on with a loop if the value is true. -/
  | loopTest (condition : Expr) (body : Stmt)
  /-- Test a loop again when its body is complete. -/
  | loopBody (condition : Expr) (body : Stmt)
  /-- Return the value. -/
  | returnValue
  /-- The value is the superclass of a class declaration. -/
  | superclass (name : Token) (parent : Occurrence) (methods : List (FunctionDecl Stmt))
  /-- Go on with the next statements. -/
  | sequence (rest : List Stmt)
  /-- Leave a block: go back to the scope around it. -/
  | leave (scope : ScopeId)
  /-- End a call of a function: go back to the scope of the caller.  If the
  call makes an object, it yields that object. -/
  | call (scope : ScopeId) (function : Function) (made : Option ObjectId)

/-- A running program. -/
structure Config where
  control : Control
  frames : List Frame
  state : State

namespace Config

/-- Go on with something else. -/
def withControl (c : Config) (control : Control) : Config :=
  { c with control }

/-- Go on with something inside a frame. -/
def within (c : Config) (frame : Frame) (control : Control) : Config :=
  { c with control, frames := frame :: c.frames }

/-- Yield a value. -/
def yielding (c : Config) (v : Value) : Config :=
  c.withControl (.value v)

/-- Fail on a line. -/
def failing (c : Config) (line : Nat) (fault : RuntimeFault) : Config :=
  c.withControl (.raising (.runtime line fault))

/-- Yield a value or fail on a line. -/
def settling (c : Config) (line : Nat) : Except RuntimeFault Value → Config
  | .ok v => c.yielding v
  | .error fault => c.failing line fault

/-- Change the state. -/
@[inline]
def mapState (c : Config) (change : State → State) : Config :=
  let ⟨control, frames, state⟩ := c
  ⟨control, frames, change state⟩

/-- Define a variable in the current scope. -/
def defining (c : Config) (name : String) (v : Value) : Config :=
  c.mapState fun s => s.define s.scope name v

end Config

end Lox
