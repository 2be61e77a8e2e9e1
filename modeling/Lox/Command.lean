/-
  Lox.Command
  ───────────
  **THE COMMAND LINE, WITHOUT THE OUTSIDE WORLD.**

  What each command writes to its two outputs, and its exit code, as a
  function of the file it reads or of the lines typed at the prompt.
-/
import Lox.Session
import Lox.Syntax.Document
import Lox.Syntax.Outline
import Lox.Text.Quoted

namespace Lox

/-! ## §1. Reports. -/

/-- What a command leaves behind. -/
structure Report where
  stdout : String
  stderr : String
  exitCode : Nat

/-- Texts, each with a line end. -/
def lines (texts : List String) : String :=
  String.join (texts.map (· ++ "\n"))

/-- Failures, each with a line end. -/
def failureLines (failures : List Diagnostic) : String :=
  lines (failures.map Diagnostic.text)

namespace Report

/-- The exit code of a text that was rejected. -/
def rejectedCode : Nat := 65

/-- The exit code of a program that failed. -/
def failedCode : Nat := 70

/-- A command that could not read its file. -/
def unreadable (problem cause : String) : Report :=
  ⟨"", "Error: " ++ problem ++ "\n\nCaused by:\n    " ++ cause ++ "\n", 1⟩

/-- A text that was rejected. -/
def rejected (failures : List Diagnostic) : Report :=
  ⟨"", failureLines failures, rejectedCode⟩

end Report

/-! ## §2. Files. -/

/-- A file by name; it has no contents if it does not exist. -/
structure SourceFile where
  name : String
  contents : Option ByteArray

/-- The text of a file, or the report that there is none. -/
def SourceFile.text (file : SourceFile) : Except Report String :=
  match file.contents with
  | none =>
      .error (.unreadable ("Failed to open file " ++ Text.quoted file.name)
        "No such file or directory (os error 2)")
  | some bytes =>
      match Text.Utf8.decode bytes with
      | .ok text => .ok text
      | .error fault =>
          .error (.unreadable (Text.quoted file.name ++ " is not valid UTF-8") fault.message)

/-! ## §3. Commands. -/

/-- What can be done with a file. -/
inductive Command where
  /-- Show its tokens. -/
  | tokenize (json : Bool)
  /-- Show its statements. -/
  | parse (json : Bool)
  /-- Evaluate it as one expression. -/
  | evaluate
  /-- Run it. -/
  | run
  deriving Repr, DecidableEq

namespace Command

/-- Show the tokens of a text. -/
def tokenizeText (json : Bool) (source : String) : Report :=
  let scanned := Scanned.ofSource source
  { stdout :=
      if json then (Json.array (scanned.tokens.map Token.toJson)).pretty 0 ++ "\n"
      else lines (scanned.tokens.map Token.text)
    stderr := failureLines scanned.failures
    exitCode := if scanned.failures.isEmpty then 0 else Report.rejectedCode }

/-- Show the statements of a text. -/
def parseText (json : Bool) (source : String) : Report :=
  let parsed := Source.program 0 source
  if !parsed.failures.isEmpty then .rejected parsed.failures
  else if json then
    ⟨(Json.array (Stmt.toJsonList parsed.statements)).pretty 0 ++ "\n", "", 0⟩
  else ⟨lines (parsed.statements.map Stmt.outline), "", 0⟩

/-- The evaluation of a text as one expression, with no variables but the
native ones. -/
def evaluation (source : String) : Job Report :=
  let parsed := Source.expression source
  match parsed.expression, parsed.failures with
  | some e, [] =>
      ((Machine.new none).evaluation e).map fun
        | (m, some (.ok v)) => ⟨m.state.textOf v ++ "\n", "", 0⟩
        | (_, some (.error d)) => ⟨"", failureLines [d], Report.failedCode⟩
        | (_, none) => ⟨"", "", 0⟩
  | _, failures => .done (.rejected failures)

/-- Evaluate a text as one expression. -/
def evaluateText (fuel : Nat) (clock : Clock) (source : String) : Report :=
  (evaluation source).perform fuel clock

/-- The run of a text. -/
def execution (source : String) : Job Report :=
  ((Session.new none).chunkShowing source).map fun (_, output, outcome) =>
    ⟨output, failureLines outcome.failures, outcome.exitCode⟩

/-- Run a text. -/
def runText (fuel : Nat) (clock : Clock) (source : String) : Report :=
  (execution source).perform fuel clock

/-- What a command asks for on a file. -/
def job (command : Command) (file : SourceFile) : Job Report :=
  match file.text with
  | .error report => .done report
  | .ok source =>
      match command with
      | tokenize json => .done (tokenizeText json source)
      | parse json => .done (parseText json source)
      | evaluate => evaluation source
      | run => execution source

/-- Carry out a command on a file. -/
def perform (fuel : Nat) (clock : Clock) (command : Command) (file : SourceFile) : Report :=
  (command.job file).perform fuel clock

end Command

/-! ## §4. The prompt. -/

/-- What is shown before each line. -/
def promptMark : String := "> "

/-- Drop one carriage return at the end of a line. -/
def withoutReturn (line : String) : String :=
  match line.toList.reverse with
  | '\r' :: rest => String.ofList rest.reverse
  | _ => line

/-- The lines of an input: each ends at a line feed, which may follow a
carriage return, and what is left at the end is a line too. -/
def inputLines (input : String) : List String :=
  match (input.splitOn "\n").reverse with
  | [] => []
  | last :: earlier =>
      (earlier.reverse.map withoutReturn) ++ (if last.isEmpty then [] else [last])

/-- A dialogue: the lines are run one after another in one session.  Failures
do not end it. -/
def dialogue (fuel : Nat) (clock : Clock) (input : String) : Report :=
  let steps := (Session.new none).runAll fuel clock (inputLines input)
  { stdout := String.join (steps.map fun (output, _) => promptMark ++ output) ++ promptMark
    stderr := String.join (steps.map fun (_, outcome) => failureLines outcome.failures)
    exitCode := 0 }

end Lox
