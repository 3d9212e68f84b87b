/-!
# Statistics of a session

How long the phases of a session took and how large its input was, as printed lines.
-/

namespace ProgramQuery

/-- How long each phase took, each as a text that fills a cell of the printed table. -/
structure Durations where
  /-- Splitting the program into tokens. -/
  lexing : String
  /-- Building the tree. -/
  parsing : String
  /-- Gathering the facts. -/
  extraction : String
  /-- Answering the queries. -/
  answering : String
  /-- The whole session. -/
  total : String
deriving DecidableEq

/-- How large the input of a session was. -/
structure Metrics where
  /-- The number of tokens of the program. -/
  tokens : Nat
  /-- The number of nodes of its tree. -/
  nodes : Nat
  /-- The number of its statements. -/
  statements : Nat
  /-- The number of queries. -/
  queries : Nat
deriving DecidableEq

/-- The line between two parts of the table. -/
def tableRule : String :=
  "+---------------------+-----------+"

/-- The lines with the statistics of a session. -/
def statisticsLines (d : Durations) (m : Metrics) : List String :=
  ["", " Analysis Statistics:", tableRule, "| Phase               | Time (s)  |", tableRule,
    "| Lexical Analysis    |" ++ d.lexing ++ "|",
    "| Parsing             |" ++ d.parsing ++ "|",
    "| Design Extraction   |" ++ d.extraction ++ "|",
    "| Query Evaluation    |" ++ d.answering ++ "|", tableRule,
    "| Total Time          |" ++ d.total ++ "|", tableRule,
    "", " Program Metrics:",
    "  - Tokens:             " ++ toString m.tokens,
    "  - AST Nodes:          " ++ toString m.nodes,
    "  - Statements:         " ++ toString m.statements,
    "  - Queries:            " ++ toString m.queries]

end ProgramQuery
