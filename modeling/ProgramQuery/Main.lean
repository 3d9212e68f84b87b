import ProgramQuery.Session.Run

/-!
# The command line

    programquery SOURCE QUERIES [-v | --verbose] [-t | --timing] [--show-ast]

The answers to the queries of one file about the program of another one go to the standard output,
each on a line. A failure goes to the standard error, and makes the exit code 1.
-/

namespace ProgramQuery

/-- How the program is called. -/
def usage : String :=
  "usage: programquery SOURCE QUERIES [-v | --verbose] [-t | --timing] [--show-ast]"

/-- A file with its content, if it can be read. -/
def readInputFile (name : String) : IO InputFile := do
  let content ← try some <$> IO.FS.readBinFile name catch _ => pure none
  return { name, content }

/-- A time in milliseconds as seconds with three decimals, filling a cell of the table. -/
def secondsCell (milliseconds : Nat) : String :=
  let decimals := String.ofList ((toString (1000 + milliseconds % 1000)).toList.drop 1)
  let seconds := toString (milliseconds / 1000) ++ "." ++ decimals
  " " ++ String.ofList (List.replicate (9 - seconds.length) ' ') ++ seconds ++ " "

/-- Runs a phase and measures it by the clock. -/
def clockStopwatch : Stopwatch IO := fun phase => do
  let start ← IO.monoMsNow
  let result := phase ()
  let stop ← IO.monoMsNow
  return (result, secondsCell (stop - start))

/-- Whether an argument is not the name of a file. -/
def isFlag (argument : String) : Bool :=
  argument ∈ ["-v", "--verbose", "-t", "--timing", "--show-ast"]

/-- What the flags ask for. -/
def sessionOptions (flags : List String) : SessionOptions :=
  { showTree := "--show-ast" ∈ flags, showTimes := "-t" ∈ flags ∨ "--timing" ∈ flags }

/-- Answers the queries of one file about the program of another one. -/
def runCommand (program queries : String) (options : SessionOptions) : IO UInt32 := do
  let start ← IO.monoMsNow
  let total : IO String := do return secondsCell ((← IO.monoMsNow) - start)
  let outcome ← runSession clockStopwatch total options
    (← readInputFile program) (← readInputFile queries)
  for line in outcome.lines do
    IO.println line
  IO.eprint outcome.complaint
  return outcome.exitCode

end ProgramQuery

/-- The program: two files, and flags anywhere among them. -/
def main (arguments : List String) : IO UInt32 := do
  match arguments.partition ProgramQuery.isFlag with
  | (flags, [program, queries]) =>
    ProgramQuery.runCommand program queries (ProgramQuery.sessionOptions flags)
  | _ =>
    IO.eprintln ProgramQuery.usage
    return 2
