import ProgramQuery.Text.Blank

/-!
# Files of queries

A file holds queries separated by blank lines. The lines of a query are joined by single blanks.
Lines that start with a hash sign are comments and count for nothing, not even as blank lines.
-/

namespace ProgramQuery

/-- The lines of a text, without the line feeds between them. -/
def linesOf : List Char → List (List Char)
  | [] => [[]]
  | c :: cs =>
    if c = '\n' then
      [] :: linesOf cs
    else
      match linesOf cs with
      | [] => [[c]]
      | line :: lines => (c :: line) :: lines

/-- Whether a trimmed line is a comment. -/
def isComment (line : List Char) : Bool :=
  line.head? = some '#'

/-- The runs of lines that are not empty, in order, where `current` is the start of a run that goes
on. -/
def paragraphs (current : List (List Char)) : List (List Char) → List (List (List Char))
  | [] => if current = [] then [] else [current]
  | line :: lines =>
    if line = [] then
      if current = [] then paragraphs [] lines else current :: paragraphs [] lines
    else
      paragraphs (current ++ [line]) lines

/-- The queries of a file. -/
def splitQueries (text : String) : List String :=
  let lines := ((linesOf text.toList).map trimBlanks).filter fun line => !isComment line
  (paragraphs [] lines).map fun paragraph => String.ofList ([' '].intercalate paragraph)

end ProgramQuery
