import ProgramQuery.Query.Basic
import ProgramQuery.Text.Blank
import ProgramQuery.Token.Lexer
import ProgramQuery.Token.Reader

/-!
# Reading queries

    query       = { declaration } "Select" result { clauses }
    declaration = entity name { "," name } ";"
    result      = "BOOLEAN" | element | "<" element { "," element } ">"
    element     = name [ "." attribute ]
    clauses     = "such" "that" relation { "and" relation }
                | "pattern" pattern { "and" pattern }
                | "with" equation { "and" equation }
    relation    = name [ "*" ] "(" reference "," reference ")"
    pattern     = name "(" reference "," shape ")"
    equation    = operand "=" operand
    reference   = name | "_" | integer | '"' name '"'

Besides the grammar there are static rules: synonyms are declared once and before they are used,
relations get arguments that they can be about, and attributes belong to the kind of entity. The
first violation, from left to right, is the error. As for programs, readers that repeat take a
bound on the number of tokens that are left.
-/

namespace ProgramQuery

/-- Why a text is not a query. -/
inductive QueryError where
  /-- The text cannot be split into tokens. -/
  | lexical (error : LexicalError)
  /-- The tokens do not form a query. -/
  | grammatical (error : SyntaxError)
  /-- A synonym is declared for a second time. -/
  | declaredTwice (synonym : String)
  /-- A name is not a declared synonym. -/
  | undeclared (synonym : String)
  /-- The entities of a synonym do not have an attribute. -/
  | noAttribute (synonym attr : String)
  /-- There is no relation of this name, or it has no starred form. -/
  | unknownRelation (name : String) (starred : Bool)
  /-- A relation cannot be about these arguments. -/
  | invalidArguments (kind : ClauseKind) (left right : Argument)
  /-- The first argument of a pattern is not a variable. -/
  | noVariable (synonym : String)
  /-- There are no patterns on the entities of a synonym. -/
  | noPattern (synonym : String)
  /-- A pattern has nothing between its quotes. -/
  | emptyPattern
  /-- One side of an equation is an underscore. -/
  | noOperand
  /-- One side of an equation is a synonym that needs an attribute. -/
  | needsAttribute (synonym : String)
deriving DecidableEq

/-- The wording of a query error. -/
def QueryError.message : QueryError → String
  | lexical error => error.message
  | grammatical error => error.message
  | declaredTwice synonym => "Query error: synonym '" ++ synonym ++ "' declared twice"
  | undeclared synonym => "Query error: synonym '" ++ synonym ++ "' is not declared"
  | noAttribute synonym attr => "Query error: '" ++ synonym ++ "' has no attribute " ++ attr
  | unknownRelation name starred =>
    "Query error: unknown relation " ++ name ++ (if starred then "*" else "")
  | invalidArguments kind left right =>
    "Query error: invalid arguments " ++ left.text ++ ", " ++ right.text ++ " for " ++ kind.label
  | noVariable synonym =>
    "Query error: pattern on '" ++ synonym ++ "' needs a variable reference"
  | noPattern synonym => "Query error: '" ++ synonym ++ "' cannot be used in a pattern"
  | emptyPattern => "Query error: empty pattern expression"
  | noOperand => "Query error: with clause needs a value or attribute"
  | needsAttribute synonym =>
    "Query error: '" ++ synonym ++ "' needs an attribute in a with clause"

/-- Reads a part of a query from the front of a list of tokens. -/
abbrev QueryReader (α : Type) := List Token → Except QueryError (α × List Token)

/-- The error at the first of the tokens that are left. -/
def unexpected (expected : Expected) : List Token → QueryError
  | [] => .grammatical (.atEnd expected)
  | t :: _ => .grammatical (.wrongToken expected t)

/-- Whether the first of the tokens is of the given kind. -/
def startsWith (kind : TokenKind) : List Token → Bool
  | [] => false
  | t :: _ => t.kind = kind

/-- Reads one token of the given kind. -/
def expectKind (kind : TokenKind) : QueryReader Token
  | [] => throw (unexpected (.token kind) [])
  | t :: ts => if t.kind = kind then .ok (t, ts) else throw (unexpected (.token kind) (t :: ts))

/-- Reads the given word. -/
def expectWord (word : String) : QueryReader Unit
  | [] => throw (unexpected (.word word) [])
  | t :: ts => if t.isWord word then .ok ((), ts) else throw (unexpected (.word word) (t :: ts))

/-! ## Declarations -/

/-- The kind of entity that the first of two names declares, and the tokens after it. -/
def entityAhead? : List Token → Option (EntityKind × List Token)
  | t :: u :: ts =>
    if t.kind = .name && u.kind = .name then
      (EntityKind.ofKeyword? t.text).map fun kind => (kind, u :: ts)
    else
      none
  | _ => none

/-- The kind of entity of a declaration and the tokens from its first synonym on. A word is only
taken for the start of a declaration if a name comes after it. -/
def declarationAhead? : List Token → Option (EntityKind × List Token)
  | t :: u :: v :: w :: ts =>
    if t.isWord "prog" && u.kind = .underscore && v.isWord "line" && w.kind = .name then
      some (.progLine, w :: ts)
    else
      entityAhead? (t :: u :: v :: w :: ts)
  | ts => entityAhead? ts

/-- Reads the synonyms of one declaration, and adds them to those already declared. -/
def readSynonyms (kind : EntityKind) : (bound : Nat) → Declarations → QueryReader Declarations
  | 0, _, ts => throw (unexpected (.token .name) ts)
  | bound + 1, declared, ts => do
    let (name, rest) ← expectKind .name ts
    if (declared.lookup name.text).isSome then
      throw (.declaredTwice name.text)
    let declared := declared ++ [(name.text, kind)]
    if startsWith .comma rest then
      readSynonyms kind bound declared rest.tail
    else
      let (_, rest) ← expectKind .semicolon rest
      return (declared, rest)

/-- Reads all declarations. -/
def readDeclarations : (bound : Nat) → Declarations → QueryReader Declarations
  | 0, declared, ts => .ok (declared, ts)
  | bound + 1, declared, ts =>
    match declarationAhead? ts with
    | none => .ok (declared, ts)
    | some (kind, rest) => do
      let (declared, rest) ← readSynonyms kind bound declared rest
      readDeclarations bound declared rest

/-- What a synonym stands for, if it is declared. -/
def entityOf (declared : Declarations) (synonym : String) : Except QueryError EntityKind :=
  match declared.lookup synonym with
  | some kind => .ok kind
  | none => .error (.undeclared synonym)

/-! ## Results -/

/-- Reads the name of an attribute: a name, with a hash sign after `stmt`. -/
def readAttributeName : QueryReader String := fun ts => do
  let (name, rest) ← expectKind .name ts
  if name.text = "stmt" then
    let (_, rest) ← expectKind .hash rest
    return ("stmt#", rest)
  else
    return (name.text, rest)

/-- Reads an attribute that the entities of a synonym have. -/
def readAttribute (kind : EntityKind) (synonym : String) : QueryReader Attribute := fun ts => do
  let (name, rest) ← readAttributeName ts
  match Attribute.ofName? name kind with
  | some attr => return (attr, rest)
  | none => throw (.noAttribute synonym name)

/-- Reads a selected element. -/
def readElement (declared : Declarations) : QueryReader Element := fun ts => do
  let (name, rest) ← expectKind .name ts
  let kind ← entityOf declared name.text
  if startsWith .dot rest then
    let (attr, rest) ← readAttribute kind name.text rest.tail
    return (⟨.attr attr, name.text⟩, rest)
  else
    return (⟨.plain, name.text⟩, rest)

/-- Reads elements up to the closing bracket, at least one. -/
def readElements (declared : Declarations) : (bound : Nat) → QueryReader (List Element)
  | 0, ts => throw (unexpected (.token .name) ts)
  | bound + 1, ts => do
    let (first, rest) ← readElement declared ts
    if startsWith .comma rest then
      let (others, rest) ← readElements declared bound rest.tail
      return (first :: others, rest)
    else
      let (_, rest) ← expectKind .gt rest
      return ([first], rest)

/-- Whether the result is the word for a yes or no, which a synonym of that name takes over. -/
def asksBoolean (declared : Declarations) : List Token → Bool
  | [] => false
  | t :: _ => t.isWord "BOOLEAN" && (declared.lookup "BOOLEAN").isNone

/-- Reads what a query selects. -/
def readResult (declared : Declarations) (bound : Nat) : QueryReader (List Element) := fun ts => do
  if asksBoolean declared ts then
    return ([⟨.boolean, "BOOLEAN"⟩], ts.tail)
  else if startsWith .lt ts then
    readElements declared bound ts.tail
  else
    let (element, rest) ← readElement declared ts
    return ([element], rest)

/-! ## Arguments -/

/-- The argument that a plain synonym is. -/
def EntityKind.argumentKind : EntityKind → ArgumentKind
  | variableName => .varSynonym
  | procedure => .procSynonym
  | constant => .constSynonym
  | _ => .stmtSynonym

/-- Reads a synonym, an underscore, a number or a name in quotes. -/
def readReference (declared : Declarations) : QueryReader Argument
  | [] => throw (unexpected .argument [])
  | t :: ts =>
    match t.kind with
    | .underscore => .ok (⟨.wildcard, "_"⟩, ts)
    | .integer => .ok (⟨.number, t.text⟩, ts)
    | .doubleQuote => do
      let (name, rest) ← expectKind .name ts
      let (_, rest) ← expectKind .doubleQuote rest
      return (⟨.name, name.text⟩, rest)
    | .name => do
      let kind ← entityOf declared t.text
      return (⟨kind.argumentKind, t.text⟩, ts)
    | _ => throw (unexpected .argument (t :: ts))

/-! ## Relations -/

/-- Whether an argument can be a statement. -/
def Argument.isStatementRef (a : Argument) : Bool :=
  a.kind ∈ [ArgumentKind.stmtSynonym, .number, .wildcard]

/-- Whether an argument can be a procedure. -/
def Argument.isProcedureRef (a : Argument) : Bool :=
  a.kind ∈ [ArgumentKind.procSynonym, .name, .wildcard]

/-- Whether an argument can be a variable. -/
def Argument.isVariableRef (a : Argument) : Bool :=
  a.kind ∈ [ArgumentKind.varSynonym, .name, .wildcard]

/-- Whether a relation can be about two arguments. For uses and modifies an underscore on the left
would leave open if a statement or a procedure is meant. -/
def ClauseKind.accepts (kind : ClauseKind) (left right : Argument) : Bool :=
  match kind with
  | uses | modifies =>
    left.kind ≠ .wildcard && (left.isStatementRef || left.isProcedureRef) && right.isVariableRef
  | calls | callsStar => left.isProcedureRef && right.isProcedureRef
  | _ => left.isStatementRef && right.isStatementRef

/-- Reads a relation between two references. -/
def readRelation (declared : Declarations) : QueryReader Clause := fun ts => do
  let (name, rest) ← expectKind .name ts
  let starred := startsWith .times rest
  let rest := if starred then rest.tail else rest
  match ClauseKind.ofRelation? name.text starred with
  | none => throw (.unknownRelation name.text starred)
  | some kind =>
    let (_, rest) ← expectKind .lParen rest
    let (left, rest) ← readReference declared rest
    let (_, rest) ← expectKind .comma rest
    let (right, rest) ← readReference declared rest
    let (_, rest) ← expectKind .rParen rest
    if kind.accepts left right then
      return ({ kind, left, right }, rest)
    else
      throw (.invalidArguments kind left right)

/-! ## Patterns -/

/-- The texts of some tokens, with a blank where the tokens do not touch. -/
def spacedText : List Token → String
  | [] => ""
  | [t] => t.text
  | t :: u :: ts => t.text ++ (if t.isAdjacentTo u then "" else " ") ++ spacedText (u :: ts)

/-- Reads an expression between quotes. Whether it is one shows when the query is answered. -/
def readQuoted : QueryReader String := fun ts => do
  let (_, rest) ← expectKind .doubleQuote ts
  let (inner, rest) := rest.span fun t => t.kind ≠ .doubleQuote
  let (_, rest) ← expectKind .doubleQuote rest
  if inner.isEmpty then
    throw .emptyPattern
  return (spacedText inner, rest)

/-- Reads what a pattern says of the right side of an assignment. -/
def readShape : QueryReader (ClauseKind × String) := fun ts => do
  if startsWith .underscore ts then
    if startsWith .doubleQuote ts.tail then
      let (text, rest) ← readQuoted ts.tail
      let (_, rest) ← expectKind .underscore rest
      return ((.assignPart, text), rest)
    else
      return ((.assignAny, ""), ts.tail)
  else
    let (text, rest) ← readQuoted ts
    return ((.assignExact, text), rest)

/-- Reads a pattern up to its closing parenthesis, given the kind of its synonym and its first
argument. -/
def readPatternEnd (kind : EntityKind) (synonym : String) (target : Argument) :
    QueryReader Clause := fun ts => do
  let left : Argument := ⟨.stmtSynonym, synonym⟩
  match kind with
  | .assign =>
    let ((shape, pattern), rest) ← readShape ts
    return ({ kind := shape, left, right := target, pattern }, rest)
  | .whileLoop =>
    let (_, rest) ← expectKind .underscore ts
    return ({ kind := .whilePattern, left, right := target }, rest)
  | .ifElse =>
    let (_, rest) ← expectKind .underscore ts
    let (_, rest) ← expectKind .comma rest
    let (_, rest) ← expectKind .underscore rest
    return ({ kind := .ifPattern, left, right := target }, rest)
  | _ => throw (.noPattern synonym)

/-- Reads a pattern. -/
def readPattern (declared : Declarations) : QueryReader Clause := fun ts => do
  let (synonym, rest) ← expectKind .name ts
  let kind ← entityOf declared synonym.text
  let (_, rest) ← expectKind .lParen rest
  let (target, rest) ← readReference declared rest
  if !target.isVariableRef then
    throw (.noVariable synonym.text)
  let (_, rest) ← expectKind .comma rest
  let (clause, rest) ← readPatternEnd kind synonym.text target rest
  let (_, rest) ← expectKind .rParen rest
  return (clause, rest)

/-! ## Equations -/

/-- Reads one side of an equation: a value, an attribute of a synonym, or a program line. -/
def readOperand (declared : Declarations) : QueryReader Argument := fun ts => do
  if startsWith .name ts then
    let (name, rest) ← expectKind .name ts
    let kind ← entityOf declared name.text
    if startsWith .dot rest then
      let (attr, rest) ← readAttribute kind name.text rest.tail
      return (⟨attr.argumentKind, name.text⟩, rest)
    else if kind = .progLine then
      return (⟨.stmtSynonym, name.text⟩, rest)
    else
      throw (.needsAttribute name.text)
  else
    let (argument, rest) ← readReference declared ts
    if argument.role = .literal then
      return (argument, rest)
    else
      throw .noOperand

/-- Reads an equation. -/
def readEquation (declared : Declarations) : QueryReader Clause := fun ts => do
  let (left, rest) ← readOperand declared ts
  let (_, rest) ← expectKind .singleEq rest
  let (right, rest) ← readOperand declared rest
  return ({ kind := .equality, left, right }, rest)

/-! ## Queries -/

/-- Whether the first of the tokens is the given word. -/
def startsWithWord (word : String) : List Token → Bool
  | [] => false
  | t :: _ => t.isWord word

/-- Reads one or more clauses of a sort, joined by `and`. -/
def readConjunction (clause : QueryReader Clause) : (bound : Nat) → QueryReader (List Clause)
  | 0, ts => do
    let (first, rest) ← clause ts
    return ([first], rest)
  | bound + 1, ts => do
    let (first, rest) ← clause ts
    if startsWithWord "and" rest then
      let (others, rest) ← readConjunction clause bound rest.tail
      return (first :: others, rest)
    else
      return ([first], rest)

/-- Reads all clauses up to the end. -/
def readClauses (declared : Declarations) :
    (bound : Nat) → List Token → Except QueryError (List Clause)
  | bound + 1, t :: ts => do
    let (clauses, rest) ←
      if t.isWord "such" then do
        let (_, rest) ← expectWord "that" ts
        readConjunction (readRelation declared) bound rest
      else if t.isWord "pattern" then
        readConjunction (readPattern declared) bound ts
      else if t.isWord "with" then
        readConjunction (readEquation declared) bound ts
      else
        throw (unexpected .clause (t :: ts))
    return clauses ++ (← readClauses declared bound rest)
  | _, _ => .ok []

/-- The query that a list of tokens is. -/
def parseQuery (ts : List Token) : Except QueryError Query := do
  let (declarations, rest) ← readDeclarations ts.length [] ts
  let (_, rest) ← expectWord "Select" rest
  let (elements, rest) ← readResult declarations ts.length rest
  let clauses ← readClauses declarations ts.length rest
  return { declarations, elements, clauses }

namespace Query

/-- The query that a text is, or why it is not one. -/
def ofText (text : String) : Except QueryError Query := do
  let ts ← (tokenize text).mapError .lexical
  parseQuery ts

/-- The query that a text is; the empty query if it is not one. -/
def ofTextD (text : String) : Query :=
  (ofText text).toOption.getD {}

/-- What is reported about a text that is not a query. -/
def rejection? (text : String) : Option String :=
  match ofText text with
  | .ok _ => none
  | .error error => some ("rejected query '" ++ trimmed text ++ "': " ++ error.message)

end Query

end ProgramQuery
