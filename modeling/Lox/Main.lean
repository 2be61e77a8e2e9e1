/-
  Lox.Main
  ────────
  **THE PROGRAM.**

  Reads the arguments, the file or the lines typed at the prompt, and writes
  the reports.  Everything else is decided elsewhere.
-/
import Lox.Command
import Std.Time

namespace Lox.Main

/-- More steps than any run takes. -/
def ampleFuel : Nat := 4611686018427387904

/-- The time, in seconds since the beginning of 1970. -/
def readClock : IO Float := do
  let time ← Std.Time.Timestamp.now
  return Float.ofInt time.toMillisecondsSinceUnixEpoch.val / 1000

/-- Do a job; the clock is read whenever the program asks for it. -/
def carryOut {α : Type} (job : Job α) : IO α :=
  job.performReading ampleFuel readClock

/-- A file with its contents, if it exists. -/
def readSource (name : String) : IO SourceFile := do
  try
    return ⟨name, some (← IO.FS.readBinFile name)⟩
  catch _ =>
    return ⟨name, none⟩

/-- Write a report. -/
def writeReport (report : Report) : IO UInt32 := do
  IO.print report.stdout
  IO.eprint report.stderr
  return report.exitCode.toUInt32

/-- Carry out a command on the file with a name. -/
def performOn (command : Command) (name : String) : IO UInt32 := do
  writeReport (← carryOut (command.job (← readSource name)))

/-- Run the lines typed at the prompt, one after another. -/
partial def prompt (input output : IO.FS.Stream) (session : Session) : IO UInt32 := do
  output.putStr promptMark
  output.flush
  let line ← input.getLine
  if line.isEmpty then return 0
  let source := "".intercalate (inputLines line)
  let (session, shown, outcome) ← carryOut (session.chunkShowing source)
  output.putStr shown
  IO.eprint (failureLines outcome.failures)
  prompt input output session

/-- The command that arguments name, and its file. -/
def command? (json : Bool) : List String → Option (Command × String)
  | ["tokenize", name] => some (.tokenize json, name)
  | ["parse", name] => some (.parse json, name)
  | ["evaluate", name] => some (.evaluate, name)
  | ["run", name] => some (.run, name)
  | _ => none

end Lox.Main

/-- Carry out the command that the arguments name. -/
def main (args : List String) : IO UInt32 := do
  let json := args.contains "--json"
  let words := args.filter fun word => word != "--json" && word != "--log"
  match Lox.Main.command? json words, words with
  | some (command, name), _ => Lox.Main.performOn command name
  | none, ["run"] =>
      Lox.Main.prompt (← IO.getStdin) (← IO.getStdout) (.new none)
  | none, _ =>
      IO.eprintln "usage: tokenize|parse|evaluate|run [file] [--json] [--log]"
      return 2
