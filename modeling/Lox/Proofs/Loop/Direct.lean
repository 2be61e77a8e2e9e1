/-
  Lox.Proofs.Loop.Direct
  ──────────────────────
  **LOOPS AS THEY ARE WRITTEN.**

  A loop with three clauses is read as blocks around a plain loop.  What such
  a loop means is said here without these blocks, and without distances.

  Environments are those of lexical scoping: a name means the nearest
  declaration, and a declaration makes a new environment around its name.  So
  a block needs no environment of its own: it is left by going back to the one
  that it was entered in.  Only a block at the top level makes one, as what it
  declares is not global.

  `Loops` says how a loop runs.  Its initializer is executed once, and all
  rounds share the environment that this leaves.  In it the condition is
  tested, the body is executed, and the increment is evaluated, unless the
  body has been left by a `return` or a failure.
-/
import Lox.Proofs.Lexical.Step
import Lox.Proofs.Session.Assignments
import Mathlib.Logic.Function.Iterate

namespace Lox.Direct

/-! ## §1. Steps. -/

/-- The state inside a block. -/
def inward (s : State) : State :=
  if s.scope = globalScope then (s.child s.scope []).inScope s.scopes.nextId else s

/-- Assign to the nearest variable with a name.  A local name has no variable
until its initializer has a value, and hides the others from then on. -/
def assigning (c : Config) (name : Token) (v : Value) : Config :=
  if c.state.scope ≠ globalScope ∧ initializing name.lexeme c.frames then
    c.failing name.line (.undefinedVariable name.lexeme)
  else Lexical.assigning c name v

/-- **One step.**  A block is its statements. -/
def step (g : Setting) (c : Config) : Config :=
  match c.control, c.frames with
  | .exec (.block body), frames =>
      ⟨.execAll body, .leave c.state.scope :: frames, inward c.state⟩
  | .value v, .assign o :: rest => assigning ⟨.value v, rest, c.state⟩ o.name v
  | _, _ => Lexical.step g c

/-- Take `n` steps. -/
def run (g : Setting) (n : Nat) (c : Config) : Config :=
  (step g)^[n] c

/-- A program has ended with an outcome after `n` steps. -/
def EndsIn (g : Setting) (n : Nat) (c : Config) (outcome : Control) (t : State) : Prop :=
  (Config.mk outcome [] t).halted = true ∧ run g n c = ⟨outcome, [], t⟩

/-- A program comes to an end with an outcome. -/
def Ends (g : Setting) (c : Config) (outcome : Control) (t : State) : Prop :=
  ∃ n, EndsIn g n c outcome t

/-- Execute a statement by itself. -/
def Executes (g : Setting) (st : Stmt) (s : State) (outcome : Control) (t : State) : Prop :=
  Ends g ⟨.exec st, [], s⟩ outcome t

/-- Evaluate an expression by itself. -/
def Evaluates (g : Setting) (e : Expr) (s : State) (outcome : Control) (t : State) : Prop :=
  Ends g ⟨.eval e, [], s⟩ outcome t

/-! ## §2. Loops. -/

section Loops

variable (g : Setting)

/-- Test the condition of a loop.  Where there is none, it holds. -/
inductive Tests : Option Expr → State → Bool → State → Prop
  | absent {s} : Tests none s true s
  | present {e s v t} (h : Evaluates g e s (.value v) t) : Tests (some e) s v.truthy t

/-- **One round of a loop**: the body, and then the increment in the environment
that the body was executed in. -/
inductive Round (body : Stmt) : Option Expr → State → Control → State → Prop
  | plain {s outcome t} (hbody : Executes g body s outcome t) : Round body none s outcome t
  | left {e s outcome t} (hbody : Executes g body (inward s) outcome t)
      (hleft : outcome ≠ .completed) : Round body (some e) s outcome (t.inScope s.scope)
  | advanced {e s s₁ v t} (hbody : Executes g body (inward s) .completed s₁)
      (hscope : s₁.scope = (inward s).scope) (hnext : Evaluates g e s₁ (.value v) t) :
      Round body (some e) s .completed (t.inScope s.scope)
  | failed {e s s₁ d t} (hbody : Executes g body (inward s) .completed s₁)
      (hscope : s₁.scope = (inward s).scope) (hnext : Evaluates g e s₁ (.raising d) t) :
      Round body (some e) s (.raising d) (t.inScope s.scope)

/-- **Round after round**, until the condition does not hold or a round is not
completed. -/
inductive Rounds (condition increment : Option Expr) (body : Stmt) :
    State → Control → State → Prop
  | done {s t} (htest : Tests g condition s false t) :
      Rounds condition increment body s .completed t
  | failed {e s d t} (hcondition : condition = some e) (h : Evaluates g e s (.raising d) t) :
      Rounds condition increment body s (.raising d) t
  | ended {s s₁ outcome t} (htest : Tests g condition s true s₁)
      (hround : Round g body increment s₁ outcome t) (hleft : outcome ≠ .completed) :
      Rounds condition increment body s outcome t
  | next {s s₁ s₂ outcome t} (htest : Tests g condition s true s₁)
      (hround : Round g body increment s₁ .completed s₂)
      (hrest : Rounds condition increment body s₂ outcome t) :
      Rounds condition increment body s outcome t

/-- **A loop**: its initializer once, then its rounds, and back to where it
started. -/
inductive Loops (condition increment : Option Expr) (body : Stmt) :
    Option Stmt → State → Control → State → Prop
  | plain {s outcome t} (h : Rounds g condition increment body s outcome t) :
      Loops condition increment body none s outcome t
  | started {st s s₁ outcome t} (hstart : Executes g st (inward s) .completed s₁)
      (h : Rounds g condition increment body s₁ outcome t) :
      Loops condition increment body (some st) s outcome (t.inScope s.scope)
  | failed {st s outcome t} (hstart : Executes g st (inward s) outcome t)
      (hleft : outcome ≠ .completed) :
      Loops condition increment body (some st) s outcome (t.inScope s.scope)

end Loops

end Lox.Direct
