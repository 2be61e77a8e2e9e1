/-
  Lox.Session
  ───────────
  **CHUNK AFTER CHUNK.**

  A session runs one source text after another on one machine.  Globals,
  objects and closures live on; occurrence numbers go on where the last text
  stopped, so that distances learned once stay right.  A text that is
  rejected before it runs changes nothing but the next number.
-/
import Lox.Machine.Run
import Lox.Resolve
import Lox.Source
import Lox.Text.Utf8

namespace Lox

/-! ## §1. Outcomes. -/

/-- What became of a chunk. -/
inductive Outcome where
  | succeeded
  /-- It was rejected before it ran. -/
  | rejected (failures : List Diagnostic)
  /-- It failed while it ran. -/
  | failed (failure : Diagnostic)
  /-- The fuel was gone before it ended. -/
  | unfinished

namespace Outcome

/-- The exit code of a program with this outcome. -/
def exitCode : Outcome → Nat
  | succeeded | unfinished => 0
  | rejected _ => 65
  | failed _ => 70

/-- All failures. -/
def failures : Outcome → List Diagnostic
  | rejected failures => failures
  | failed failure => [failure]
  | succeeded | unfinished => []

/-- The outcome in a few words, if something went wrong. -/
def summary? : Outcome → Option String
  | rejected failures => some (Nat.repr failures.length ++ " static error(s)")
  | failed failure => some failure.text
  | succeeded | unfinished => none

/-- The outcome of statements that were executed. -/
def ofEnding : Ending → Outcome
  | .completed => succeeded
  | .failed d => failed d
  | .unfinished => unfinished

end Outcome

/-! ## §2. Sessions. -/

/-- A machine, and the number of the next occurrence. -/
structure Session where
  machine : Machine
  nextId : Nat

namespace Session

/-- A session before its first chunk. -/
def new (capacity : Option Nat) : Session :=
  ⟨.new capacity, 0⟩

/-- **A chunk**: scan, read, resolve, execute; the first of these to fail
decides. -/
def chunk (s : Session) (source : String) : Job (Session × Outcome) :=
  let parsed := Source.program s.nextId source
  let s := { s with nextId := parsed.nextId }
  if !parsed.failures.isEmpty then .done (s, .rejected parsed.failures)
  else
    let resolution := Resolve.program s.machine.globalNames parsed.statements
    if !resolution.failures.isEmpty then .done (s, .rejected resolution.failures)
    else
      let nextId := s.nextId
      let machine := s.machine.learn resolution.distances
      (machine.execution parsed.statements).map fun (machine, ending) =>
        (⟨machine, nextId⟩, .ofEnding ending)

/-- Run a chunk. -/
def run (fuel : Nat) (clock : Clock) (s : Session) (source : String) : Session × Outcome :=
  (s.chunk source).perform fuel clock

/-- The number of octets printed so far. -/
def printed (s : Session) : Nat :=
  s.machine.state.sink.written.size

/-- What was printed after the first `start` octets. -/
def outputFrom (s : Session) (start : Nat) : String :=
  Text.Utf8.decodeLossy (s.machine.state.sink.written.extract start s.printed)

/-- A chunk, with what it printed. -/
def chunkShowing (s : Session) (source : String) : Job (Session × String × Outcome) :=
  let start := s.printed
  (s.chunk source).map fun (s, outcome) => (s, s.outputFrom start, outcome)

/-- Run a chunk, and tell what it printed. -/
def runShowing (fuel : Nat) (clock : Clock) (s : Session) (source : String) :
    Session × String × Outcome :=
  (s.chunkShowing source).perform fuel clock

/-- Run chunks in order, and tell for each what it printed. -/
def runAll (fuel : Nat) (clock : Clock) (s : Session) : List String → List (String × Outcome)
  | [] => []
  | source :: rest =>
      let (s, step) := s.runShowing fuel clock source
      step :: s.runAll fuel clock rest

end Session

end Lox
