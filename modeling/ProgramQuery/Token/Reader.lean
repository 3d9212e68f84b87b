import ProgramQuery.Token.Basic

/-!
# Reading tokens

What the grammars of programs and queries share: the ways in which a list of tokens can fail to be
a sentence, and the consumption of single tokens. A reader takes the tokens that are left and
returns what it has read together with the tokens after it.
-/

namespace ProgramQuery

/-- What a reader was looking for. -/
inductive Expected where
  /-- A token of this kind. -/
  | token (kind : TokenKind)
  /-- This word at the start of a construct of a program. -/
  | keyword (word : String)
  /-- This word of a query. -/
  | word (word : String)
  /-- A statement. -/
  | statement
  /-- One of the two connectives of conditions. -/
  | connective
  /-- An operand of an arithmetic expression. -/
  | factor
  /-- The end of an arithmetic expression that stands alone. -/
  | endOfExpression
  /-- An argument of a clause. -/
  | argument
  /-- A word that starts a clause. -/
  | clause
deriving DecidableEq

/-- How a message names what was looked for. -/
def Expected.describe : Expected → String
  | token kind => kind.label
  | keyword text => "'" ++ text ++ "'"
  | word text => text
  | statement => "statement"
  | connective => "ANDAND or OROR"
  | factor => "factor"
  | endOfExpression => "end of expression"
  | argument => "argument"
  | clause => "such that, pattern or with"

/-- Why tokens do not form a sentence. -/
inductive SyntaxError where
  /-- The token found is of a wrong kind. -/
  | wrongKind (expected : Expected) (found : Token)
  /-- The token found is a wrong one, which the message shows with its text. -/
  | wrongToken (expected : Expected) (found : Token)
  /-- There is no token left. -/
  | atEnd (expected : Expected)
deriving DecidableEq

/-- The wording of a syntax error. -/
def SyntaxError.message : SyntaxError → String
  | wrongKind expected found =>
    "Syntax error at line " ++ toString found.line ++ ": expect " ++ expected.describe ++
      ", got " ++ found.kind.label
  | wrongToken expected found =>
    "Syntax error at line " ++ toString found.line ++ ": expect " ++ expected.describe ++
      ", got " ++ found.describe
  | atEnd expected => "Syntax error: expect " ++ expected.describe ++ ", got end of input"

/-- Reads something from the front of a list of tokens: what was read, and the tokens after it. -/
abbrev Reader (α : Type) := List Token → Except SyntaxError (α × List Token)

/-- Reads a single token, and from it what `read?` finds in it. Any other token is `wrong`. -/
def readToken {α : Type} (read? : Token → Option α) (expected : Expected)
    (wrong : Expected → Token → SyntaxError) : Reader α
  | [] => .error (.atEnd expected)
  | t :: ts =>
    match read? t with
    | some a => .ok (a, ts)
    | none => .error (wrong expected t)

/-- Reads one token of the given kind. -/
def readKind (kind : TokenKind) : Reader Token :=
  readToken (fun t => if t.kind = kind then some t else none) (.token kind) .wrongKind

/-- Reads a word that starts or divides a construct of a program. -/
def readKeyword (word : String) : Reader Token :=
  readToken (fun t => if t.isWord word then some t else none) (.keyword word) .wrongToken

end ProgramQuery
