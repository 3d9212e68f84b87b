import ProgramQuery.Token.Lexer
import ProgramQuery.Token.Reader
import ProgramQuery.Tree.Display

/-!
# Reading arithmetic expressions

    expression = term { ( "+" | "-" ) term }
    term       = factor { ( "*" | "/" | "%" ) factor }
    factor     = name | integer | "(" expression ")"

Operators of one level group to the left. Every reader takes a bound on the number of tokens that
are left. Each call below it gets a smaller bound with fewer tokens, so a bound of at least the
number of tokens is never felt: at zero there is no token left to read.
-/

namespace ProgramQuery

/-- A node for an operation on two operands, on the line of its operator. -/
def Node.binary (kind : NodeKind) (line : Nat) (left right : Node) : Node :=
  { kind, line := some line, children := [left, right] }

/-- A node for a variable. -/
def Node.ofName (t : Token) : Node :=
  { kind := .variableRef, line := some t.line, name := t.text }

/-- A node for a constant. -/
def Node.ofInteger (t : Token) : Node :=
  { kind := .constant, line := some t.line, constant := t.text }

/-- The operations on the level of sums. -/
def sumOperator : TokenKind → Option NodeKind
  | .plus => some .plus
  | .minus => some .minus
  | _ => none

/-- The operations on the level of products. -/
def productOperator : TokenKind → Option NodeKind
  | .times => some .multiply
  | .div => some .divide
  | .mod => some .modulo
  | _ => none

/-- Reads further operands as long as an operator comes next, and groups them to the left. -/
def readOperations (operator : TokenKind → Option NodeKind) (operand : Reader Node) :
    (bound : Nat) → Node → Reader Node
  | bound + 1, left, t :: ts =>
    match operator t.kind with
    | none => .ok (left, t :: ts)
    | some kind => do
      let (right, rest) ← operand ts
      readOperations operator operand bound (.binary kind t.line left right) rest
  | _, left, ts => .ok (left, ts)

/-- Reads one or more operands with operators between them. -/
def readChain (operator : TokenKind → Option NodeKind) (operand : Reader Node) (bound : Nat) :
    Reader Node := fun ts => do
  let (first, rest) ← operand ts
  readOperations operator operand bound first rest

/-- Reads sums of products of what `factor` reads. -/
def readSum (factor : Reader Node) (bound : Nat) : Reader Node :=
  readChain sumOperator (readChain productOperator factor bound) bound

/-- Reads a name, an integer or an expression in parentheses. -/
def readFactor : (bound : Nat) → Reader Node
  | bound + 1, t :: ts =>
    match t.kind with
    | .name => .ok (.ofName t, ts)
    | .integer => .ok (.ofInteger t, ts)
    | .lParen => do
      let (inner, rest) ← readSum (readFactor bound) bound ts
      let (_, rest) ← readKind .rParen rest
      return (inner, rest)
    | _ => .error (.wrongKind .factor t)
  | _, _ => .error (.atEnd .factor)

/-- Reads an expression, as far as it goes. -/
def readExpression (bound : Nat) : Reader Node :=
  readSum (readFactor bound) bound

/-- The expression that spans all of the tokens. -/
def parseExpression (ts : List Token) : Except SyntaxError Node := do
  match ← readExpression ts.length ts with
  | (tree, []) => return tree
  | (_, t :: _) => throw (.wrongKind .endOfExpression t)

/-- Why a text is not an expression or a program. -/
inductive ParseError where
  /-- The text cannot be split into tokens. -/
  | lexical (error : LexicalError)
  /-- The tokens do not form a sentence. -/
  | grammatical (error : SyntaxError)
deriving DecidableEq

/-- The wording of a parse error. -/
def ParseError.message : ParseError → String
  | lexical error => error.message
  | grammatical error => error.message

/-- The tree of a text that is an arithmetic expression. -/
def expressionTree (text : String) : Except ParseError Node := do
  let ts ← (tokenize text).mapError .lexical
  (parseExpression ts).mapError .grammatical

/-- The canonical text of a text that is an arithmetic expression. -/
def canonicalExpression (text : String) : Except ParseError String :=
  (expressionTree text).map Node.canonical

end ProgramQuery
