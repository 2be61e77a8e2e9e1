/-
  Lox.Machine.Run
  ───────────────
  **RUNNING TO THE END.**

  Steps are taken until the program has ended or the fuel is gone; the ways a
  run can end, and running out of fuel, are kept apart.

  A run is given its clock beforehand, or asks for the time whenever a step
  reads the clock.  What is to be run is a job, so that both ways of running it
  have everything else in common.
-/
import Lox.Machine.Step

namespace Lox

/-! ## §1. Runs. -/

/-- Take at most `fuel` steps. -/
def Config.run (g : Setting) : Nat → Config → Config
  | 0, c => c
  | fuel + 1, c => if c.halted then c else (c.step g).run g fuel

/-- How the statements of a program end. -/
inductive Ending where
  /-- All were executed, or a `return` stopped them. -/
  | completed
  | failed (d : Diagnostic)
  /-- The fuel was gone first. -/
  | unfinished

/-- How a configuration has ended. -/
def Config.ending (c : Config) : Ending :=
  match c.control, c.frames with
  | .completed, [] => .completed
  | .returning _, [] => .completed
  | .raising d, [] => .failed d
  | _, _ => .unfinished

/-! ## §2. Readings from outside. -/

/-- Whether the next step reads the clock. -/
def Config.readsClock (g : Setting) (c : Config) : Bool :=
  match c.control, c.frames with
  | .value (.native .clock), .callee _ [] :: _ => !g.exhausted c.state.depth
  | _, _ => false

/-- Take at most `fuel` steps.  Where a step reads the clock, `read` says what
it shows. -/
@[specialize]
def Config.runReading {m : Type → Type} [Monad m] (read : m Float) (g : Setting) :
    Nat → Config → m Config
  | 0, c => pure c
  | fuel + 1, c =>
      if c.halted then pure c
      else if c.readsClock g then do
        let time ← read
        (c.step { g with clock := .still time }).runReading read g fuel
      else (c.step g).runReading read g fuel

/-! ## §3. Jobs. -/

/-- What is asked for: a result that is there already, or what comes of a
program when it has run. -/
inductive Job (α : Type) where
  | done (result : α)
  | run (distances : Distances) (start : Config) (result : Config → α)

namespace Job

variable {α β : Type}

/-- Make something else of the result. -/
def map (f : α → β) : Job α → Job β
  | done result => done (f result)
  | run distances start result => run distances start fun c => f (result c)

/-- Do a job in at most `fuel` steps. -/
def perform (fuel : Nat) (clock : Clock) : Job α → α
  | done result => result
  | run distances start result => result (Config.run { distances, clock } fuel start)

/-- Do a job in at most `fuel` steps, with a clock outside. -/
@[specialize]
def performReading {m : Type → Type} [Monad m] (fuel : Nat) (read : m Float) : Job α → m α
  | done result => pure result
  | run distances start result => do
      return result (← Config.runReading read { distances, clock := .still 0 } fuel start)

@[simp]
theorem perform_map (f : α → β) (fuel : Nat) (clock : Clock) (job : Job α) :
    (job.map f).perform fuel clock = f (job.perform fuel clock) := by
  cases job <;> rfl

end Job

/-! ## §4. Machines. -/

/-- A program state with the distances of all occurrences it can meet. -/
structure Machine where
  state : State
  distances : Distances

namespace Machine

/-- A machine that has not run anything. -/
def new (capacity : Option Nat) : Machine :=
  ⟨.initial capacity, ∅⟩

/-- Learn more distances. -/
def learn (m : Machine) (distances : List (Nat × Nat)) : Machine :=
  { m with distances := distances.foldl (fun t (id, d) => t.insert id d) m.distances }

/-- The names of the global variables. -/
def globalNames (m : Machine) : List String :=
  m.state.globals.names

/-- The execution of statements. -/
def execution (m : Machine) (statements : List Stmt) : Job (Machine × Ending) :=
  let ⟨state, distances⟩ := m
  .run distances ⟨.execAll statements, [], state⟩ fun c => (⟨c.state, distances⟩, c.ending)

/-- Execute statements. -/
def interpret (fuel : Nat) (clock : Clock) (m : Machine) (statements : List Stmt) :
    Machine × Ending :=
  (m.execution statements).perform fuel clock

/-- The evaluation of an expression. -/
def evaluation (m : Machine) (e : Expr) : Job (Machine × Option (Except Diagnostic Value)) :=
  let ⟨state, distances⟩ := m
  .run distances ⟨.eval e, [], state⟩ fun c =>
    let result := match c.control, c.frames with
      | .value v, [] => some (.ok v)
      | .raising d, [] => some (.error d)
      | _, _ => none
    (⟨c.state, distances⟩, result)

/-- Evaluate an expression; there is no result if the fuel is gone first. -/
def evaluate (fuel : Nat) (clock : Clock) (m : Machine) (e : Expr) :
    Machine × Option (Except Diagnostic Value) :=
  (m.evaluation e).perform fuel clock

end Machine

end Lox
