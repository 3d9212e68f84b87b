import ProgramQuery.Tree.Expression

/-!
# Reading programs

    program   = procedure { procedure }
    procedure = "procedure" name block
    block     = "{" statement { statement } "}"
    statement = "read" name ";" | "print" name ";" | "call" name ";"
              | "while" "(" condition ")" block
              | "if" "(" condition ")" "then" block "else" block
              | name "=" expression ";"
    condition = expression ( ">" | ">=" | "<" | "<=" | "==" | "!=" ) expression
              | "!" "(" condition ")"
              | "(" condition ")" ( "&&" | "||" ) "(" condition ")"

Words such as `while` are names like all others. A statement is an assignment if its second token
is an equals sign, and only otherwise does its first word decide. As with expressions, every
reader takes a bound on the number of tokens that are left.
-/

namespace ProgramQuery

/-- The comparisons. -/
def comparisonOperator : TokenKind → Option NodeKind
  | .gt => some .greater
  | .gtEq => some .greaterEq
  | .lt => some .less
  | .ltEq => some .lessEq
  | .eqEq => some .equal
  | .notEq => some .notEqual
  | _ => none

/-- The connectives between conditions. -/
def connectiveOperator : TokenKind → Option NodeKind
  | .andAnd => some .and
  | .orOr => some .or
  | _ => none

/-- Reads a comparison. It is `none` if there is no expression, or no comparison sign after it;
past the sign nothing but an expression will do. -/
def readComparison? (bound : Nat) (ts : List Token) :
    Except SyntaxError (Option (Node × List Token)) :=
  match readExpression bound ts with
  | .ok (left, t :: rest) =>
    match comparisonOperator t.kind with
    | none => .ok none
    | some kind => do
      let (right, rest) ← readExpression bound rest
      return some (.binary kind t.line left right, rest)
  | _ => .ok none

/-- Reads one of the connectives: its operation and its line. -/
def readConnective : Reader (NodeKind × Nat) :=
  readToken (fun t => (connectiveOperator t.kind).map fun kind => (kind, t.line)) .connective
    .wrongKind

/-- Reads what `inner` reads, between parentheses. -/
def readParenthesised (inner : Reader Node) : Reader Node := fun ts => do
  let (_, rest) ← readKind .lParen ts
  let (tree, rest) ← inner rest
  let (_, rest) ← readKind .rParen rest
  return (tree, rest)

/-- Reads a condition. -/
def readCondition : (bound : Nat) → Reader Node
  | bound + 1, t :: ts => do
    match ← readComparison? (bound + 1) (t :: ts) with
    | some comparison => return comparison
    | none =>
      if t.kind = .not then
        let (inner, rest) ← readParenthesised (readCondition bound) ts
        return ({ kind := .not, line := some t.line, children := [inner] }, rest)
      else
        let (left, rest) ← readParenthesised (readCondition bound) (t :: ts)
        let ((kind, line), rest) ← readConnective rest
        let (right, rest) ← readParenthesised (readCondition bound) rest
        return (.binary kind line left right, rest)
  | _, _ => .error (.atEnd (.token .lParen))

/-- Reads a word, a name and a semicolon as a statement. -/
def readNamed (kind : NodeKind) (word : Token) : Reader Node := fun ts => do
  let (name, rest) ← readKind .name ts
  let (_, rest) ← readKind .semicolon rest
  return ({ kind, line := some word.line, children := [.ofName name] }, rest)

/-- Reads an assignment, whose second token is known to be an equals sign. -/
def readAssignment (bound : Nat) : Reader Node := fun ts => do
  let (target, rest) ← readKind .name ts
  let (sign, rest) ← readKind .singleEq rest
  let (value, rest) ← readExpression bound rest
  let (_, rest) ← readKind .semicolon rest
  return ({ Node.binary .assign sign.line (.ofName target) value with name := target.text }, rest)

/-- Reads statements up to the closing brace, at least one. After a statement comes the brace or
the name that starts the next one. -/
def readStatements (statement : Reader Node) :
    (bound : Nat) → Reader (List Node)
  | 0, _ => .error (.atEnd (.token .name))
  | bound + 1, ts => do
    match ← statement ts with
    | (_, []) => throw (.atEnd (.token .name))
    | (first, t :: rest) =>
      if t.kind = .rBrace then
        return ([first], rest)
      else
        let (others, rest) ← readStatements statement bound (t :: rest)
        return (first :: others, rest)

/-- Reads a list of statements in braces. -/
def readBlock (statement : Reader Node) (bound : Nat) : Reader Node := fun ts => do
  let (brace, rest) ← readKind .lBrace ts
  let (statements, rest) ← readStatements statement bound rest
  return ({ kind := .statementList, line := some brace.line, children := statements }, rest)

/-- Reads a loop after its first word. -/
def readWhile (statement : Reader Node) (bound : Nat) (word : Token) :
    Reader Node := fun ts => do
  let (condition, rest) ← readParenthesised (readCondition bound) ts
  let (body, rest) ← readBlock statement bound rest
  return ({ kind := .whileLoop, line := some word.line, children := [condition, body] }, rest)

/-- Reads a branching after its first word. -/
def readIf (statement : Reader Node) (bound : Nat) (word : Token) :
    Reader Node := fun ts => do
  let (condition, rest) ← readParenthesised (readCondition bound) ts
  let (_, rest) ← readKeyword "then" rest
  let (accepted, rest) ← readBlock statement bound rest
  let (_, rest) ← readKeyword "else" rest
  let (refused, rest) ← readBlock statement bound rest
  return ({ kind := .ifElse, line := some word.line, children := [condition, accepted, refused] },
    rest)

/-- Whether the second of the tokens is an equals sign. -/
def startsAssignment : List Token → Bool
  | _ :: t :: _ => t.kind = .singleEq
  | _ => false

/-- Reads a statement. -/
def readStatement : (bound : Nat) → Reader Node
  | 0, _ => .error (.atEnd (.token .name))
  | bound + 1, ts =>
    if startsAssignment ts then
      readAssignment bound ts
    else do
      let (word, rest) ← readKind .name ts
      match word.text with
      | "read" => readNamed .read word rest
      | "print" => readNamed .print word rest
      | "call" => readNamed .call word rest
      | "while" => readWhile (readStatement bound) bound word rest
      | "if" => readIf (readStatement bound) bound word rest
      | _ => throw (.wrongToken .statement word)

/-- Reads a procedure. -/
def readProcedure (bound : Nat) : Reader Node := fun ts => do
  let (word, rest) ← readKeyword "procedure" ts
  let (name, rest) ← readKind .name rest
  let (body, rest) ← readBlock (readStatement bound) bound rest
  return ({ kind := .procedure, line := some word.line, name := name.text, children := [body] },
    rest)

/-- Reads procedures up to the end, at least one. -/
def readProcedures : (bound : Nat) → List Token → Except SyntaxError (List Node)
  | 0, _ => .error (.atEnd (.keyword "procedure"))
  | bound + 1, ts => do
    match ← readProcedure (bound + 1) ts with
    | (first, []) => return [first]
    | (first, t :: rest) => return first :: (← readProcedures bound (t :: rest))

/-- The tree of a list of tokens that is a program. -/
def parseProgram (ts : List Token) : Except SyntaxError Node := do
  let procedures ← readProcedures ts.length ts
  return { kind := .program, children := procedures }

/-- The tree of a text that is a program. -/
def programTree (text : String) : Except ParseError Node := do
  let ts ← (tokenize text).mapError .lexical
  (parseProgram ts).mapError .grammatical

end ProgramQuery
