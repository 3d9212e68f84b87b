import ProgramQuery.Query.Answer
import ProgramQuery.Session.QueryFile
import ProgramQuery.Session.Report

/-!
# A session

A session reads a program and a file of queries, and prints the answer to each query on a line. On
request it also prints the tree of the program before the answers, and statistics after them. What
was printed before a failure stays printed.

Time is measured from outside: `Stopwatch` runs a phase and says how long it took. With a stopwatch
that does nothing else a session is a function of its input.
-/

namespace ProgramQuery

/-- What the user asks for besides the answers. -/
structure SessionOptions where
  /-- Print the tree of the program. -/
  showTree : Bool := false
  /-- Print statistics. -/
  showTimes : Bool := false
deriving DecidableEq

/-- A file by its name, with its content if it can be read. -/
structure InputFile where
  /-- The name of the file. -/
  name : String
  /-- The bytes of the file. -/
  content : Option ByteArray

/-- Why a session failed. -/
inductive SessionError where
  /-- There is no such file. -/
  | unreadable (name : String)
  /-- A file is not a text. -/
  | notText
  /-- The program cannot be asked about. -/
  | program (error : ProgramError)
deriving DecidableEq

/-- The wording of a session error. -/
def SessionError.message : SessionError → String
  | unreadable name => "File read error: " ++ name ++ " is not a readable file"
  | notText => "I/O error: stream did not contain valid UTF-8"
  | program error => error.message

/-- The text of a file. -/
def InputFile.text (file : InputFile) : Except SessionError String :=
  match file.content with
  | none => .error (.unreadable file.name)
  | some bytes =>
    match String.fromUTF8? bytes with
    | none => .error .notText
    | some text => .ok text

/-- What a session has done: the printed lines, and the reason if it failed. -/
structure Outcome where
  /-- The printed lines. -/
  lines : List String
  /-- Why the session failed, if it did. -/
  error : Option SessionError := none
deriving DecidableEq

namespace Outcome

/-- The exit code of the program. -/
def exitCode (o : Outcome) : UInt32 :=
  if o.error.isSome then 1 else 0

/-- What is printed about a failure. -/
def complaint (o : Outcome) : String :=
  match o.error with
  | none => ""
  | some error => "Error: Analysis failed: " ++ error.message ++ "\n"

end Outcome

/-- Runs a phase and measures how long it took, as a text that fills a cell of the table. -/
abbrev Stopwatch (m : Type → Type) := {α : Type} → (Unit → α) → m (α × String)

/-- The lines that show a tree. -/
def treeLines (tree : Node) : List String :=
  "" :: " Abstract Syntax Tree:" :: (tree.prettyLines 0 ++ [""])

/-- The answers to some queries, each on a line. -/
def answerLines (facts : Facts) (queries : List String) : List String :=
  queries.map fun query => ", ".intercalate (answerText facts query)

/-- The part of a session after the facts have been gathered. `report` makes the statistics from the
number of queries and the time that it took to answer them. -/
def runQueries {m : Type → Type} [Monad m] (stopwatch : Stopwatch m) (facts : Facts)
    (file : InputFile) (shown : List String) (report : Nat → String → m (List String)) :
    m Outcome := do
  match file.text with
  | .error error => return ⟨shown, some error⟩
  | .ok text =>
    let queries := splitQueries text
    let (answers, time) ← stopwatch fun _ => answerLines facts queries
    return ⟨shown ++ answers ++ (← report queries.length time), none⟩

/-- A whole session. `total` says how long it has taken so far. -/
def runSession {m : Type → Type} [Monad m] (stopwatch : Stopwatch m) (total : m String)
    (options : SessionOptions) (program queries : InputFile) : m Outcome := do
  let failed (shown : List String) (error : ProgramError) : Outcome :=
    ⟨shown, some (.program error)⟩
  match program.text with
  | .error error => return ⟨[], some error⟩
  | .ok text =>
    let (tokens, lexing) ← stopwatch fun _ => tokenize text
    match tokens with
    | .error error => return failed [] (.parse (.lexical error))
    | .ok tokens =>
      let (tree, parsing) ← stopwatch fun _ => parseProgram tokens
      match tree with
      | .error error => return failed [] (.parse (.grammatical error))
      | .ok tree =>
        let shown := if options.showTree then treeLines tree else []
        let (facts, extraction) ← stopwatch fun _ => Facts.ofTree tree
        match facts with
        | .error error => return failed shown (.semantic error)
        | .ok facts =>
          runQueries stopwatch facts queries shown fun count answering => do
            if options.showTimes then
              let times := { lexing, parsing, extraction, answering, total := ← total }
              let sizes := ⟨tokens.length, tree.nodes.length, facts.kinds.size, count⟩
              return statisticsLines times sizes
            else
              return []

end ProgramQuery
