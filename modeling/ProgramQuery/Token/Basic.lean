/-!
# Tokens

Programs and queries are made of the same tokens. A token keeps its text and the place of its
first character.
-/

namespace ProgramQuery

/-- What a token is, apart from the text of names and integers. -/
inductive TokenKind where
  | lBrace | rBrace | lParen | rParen
  | semicolon | comma | underscore | doubleQuote | dot | hash
  | singleEq | not | andAnd | orOr
  | eqEq | notEq | gt | gtEq | lt | ltEq
  | plus | minus | times | div | mod
  | name | integer
deriving DecidableEq

namespace TokenKind

/-- The word for a kind in messages. -/
def label : TokenKind → String
  | lBrace => "LBRACE"
  | rBrace => "RBRACE"
  | lParen => "LPAREN"
  | rParen => "RPAREN"
  | semicolon => "SEMICOLON"
  | comma => "COMMA"
  | underscore => "UNDERSCORE"
  | doubleQuote => "DOUBLE_QUOTE"
  | dot => "DOT"
  | hash => "HASH"
  | singleEq => "SINGLE_EQ"
  | not => "NOT"
  | andAnd => "ANDAND"
  | orOr => "OROR"
  | eqEq => "EQEQ"
  | notEq => "NEQ"
  | gt => "GT"
  | gtEq => "GTE"
  | lt => "LT"
  | ltEq => "LTE"
  | plus => "PLUS"
  | minus => "MINUS"
  | times => "MULT"
  | div => "DIV"
  | mod => "MOD"
  | name => "NAME"
  | integer => "INTEGER"

end TokenKind

/-- A lexeme of a text and the place where it starts, counted from line 1 and column 1. -/
structure Token where
  /-- What the token is. -/
  kind : TokenKind
  /-- Its characters. -/
  text : String
  /-- One more than the number of line ends before it. -/
  line : Nat
  /-- One more than the number of characters before it on its line. -/
  column : Nat
deriving DecidableEq

namespace Token

/-- How a message shows a token: its kind, and the text of a name or an integer. -/
def describe (t : Token) : String :=
  match t.kind with
  | .name | .integer => t.kind.label ++ "(" ++ t.text ++ ")"
  | kind => kind.label

/-- Whether the token is the given word. Words are names; no word is reserved. -/
def isWord (t : Token) (word : String) : Bool :=
  t.kind = .name && t.text = word

/-- Whether the next token starts where this one ends. -/
def isAdjacentTo (t next : Token) : Bool :=
  t.line = next.line && t.column + t.text.length = next.column

end Token

end ProgramQuery
